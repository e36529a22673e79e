/-
GemCourier/Proofs/Commands/Assets.lean

Which asset an update asks for.

An update sends at most two requests: the look-up of the latest release and, if that
release is newer and there is an asset for this machine, the request for the asset.
The tag that the look-up tells loses a `v` at its front if it has one, and the address
of the asset has a `v` in front in any case.  So the asset is asked for under the tag
as it would be written with a `v` (`marked`), and that is the tag of the latest release
only if it begins with one.

Main results: `latest_iff_tagged`, `requests_update`, `update_asks`.
-/
import GemCourier.Proofs.Commands.Update
import GemCourier.Proofs.Remote.Addresses
import GemCourier.Proofs.Remote.Requests

namespace GemCourier

open Remote Release

/-! ### Requests of a step -/

namespace Act

theorem aloof_requests : Aloof Host.requests where
  disk := fun _ _ => rfl
  noted := by
    intro h level text
    rw [Host.requests, Host.record, List.filterMap_append]
    exact List.append_nil _

theorem print_requests (line : Console.Line) : (print line).Keeps Host.requests := by
  intro h
  show (h.transcript ++ [Event.printed line]).filterMap Event.request? = _
  rw [List.filterMap_append]
  exact List.append_nil _

end Act

/-- Replacing an executable sends nothing. -/
theorem Release.install_requests (bytes : ByteArray) (path : Path) :
    (install bytes path).Keeps Host.requests := by
  have hchange := fun f => Act.aloof_requests.change f
  have hnote := fun level text => Act.aloof_requests.note level text
  have hrunnable : (makeRunnable path).Keeps Host.requests := by
    refine .bind (hchange _) fun answer => ?_
    cases answer with
    | error fault => exact .pure _
    | ok _ => exact .bind .disk fun _ => .bind (hnote _ _) fun _ => .pure _
  refine .bind .disk fun _ => .bind (hnote _ _) fun _ => .bind (hchange _) fun answer => ?_
  cases answer with
  | error fault => exact .pure _
  | ok _ =>
    refine .bind (hchange _) fun answer => ?_
    cases answer with
    | error fault => exact .pure _
    | ok _ => exact hrunnable

/-! ### Tags -/

/-- The request that looks up the latest release. -/
def Surroundings.lookUp (s : Surroundings) : Request :=
  (Release.remote s.token).request GitHub.acceptJson (Release.remote s.token).latestReleaseUrl

/-- The tag of the latest release, as the network tells it. -/
def Surroundings.Tagged (s : Surroundings) (tag : String) : Prop :=
  ∃ body json, s.network.answer (Release.remote s.token).latestReleaseUrl = .answered 200 body ∧
    GitHub.bodyJson? body = some json ∧ json.fields? ["tag_name"] = some [tag]

/-- The latest version is known if the look-up can be sent and a tag comes back; it is the tag
without its `v`. -/
theorem Surroundings.latest_iff_tagged {s : Surroundings} {latest : String} :
    s.Latest latest ↔ badHeader? s.lookUp = none ∧
      ∃ tag, s.Tagged tag ∧ GitHub.versionOfTag tag = latest := by
  have hsend : ∀ body, (s.network.send s.lookUp).outcome = .ok body ↔
      badHeader? s.lookUp = none ∧
        s.network.answer (Release.remote s.token).latestReleaseUrl = .answered 200 body := by
    intro body
    refine ⟨fun hsent => ⟨?_, Network.answer_of_send hsent⟩,
      fun ⟨hheader, hanswer⟩ => Commands.send_ok hheader hanswer⟩
    cases hheader : badHeader? s.lookUp with
    | none => rfl
    | some header => simp [Network.send, hheader] at hsent
  constructor
  · intro hlatest
    obtain ⟨body, hbody⟩ := GitHub.decoded_ok hlatest
    obtain ⟨hheader, hanswer⟩ := (hsend body).1 hbody
    refine ⟨hheader, ?_⟩
    rw [Latest, GitHub.latestRelease, GitHub.decoded, Reply.andThen, hbody] at hlatest
    dsimp only at hlatest
    split at hlatest
    · cases hlatest
    · next json hjson =>
      split at hlatest
      · cases hlatest
      · next latest' hread =>
        cases hlatest
        split at hread
        · next tag hfields => exact ⟨tag, ⟨body, json, hanswer, hjson, hfields⟩, Option.some.inj hread⟩
        · cases hread
  · rintro ⟨hheader, tag, ⟨body, json, hanswer, hjson, hfields⟩, rfl⟩
    have hsent := (hsend body).2 ⟨hheader, hanswer⟩
    rw [Latest, GitHub.latestRelease, GitHub.decoded, Reply.andThen, ← lookUp, hsent]
    simp only [hjson, hfields]

/-- The tag of a release with a `v` at its front. -/
def marked (tag : String) : String :=
  "v" ++ GitHub.versionOfTag tag

/-- A tag is written with a `v` in front exactly if it begins with one. -/
theorem marked_eq_iff {tag : String} : marked tag = tag ↔ ∃ rest, tag.toList = 'v' :: rest := by
  constructor
  · intro h
    exact ⟨(GitHub.versionOfTag tag).toList, by simpa [marked] using (congrArg String.toList h).symm⟩
  · rintro ⟨rest, hrest⟩
    apply String.toList_inj.1
    simp [marked, GitHub.versionOfTag, hrest]

/-- The address of the asset for a platform in the release of a tag. -/
def releaseAddress (tag platform : String) : String :=
  GitHub.assetBase ++ Release.repository.text ++ "/releases/download/" ++ tag ++ "/" ++
    Platform.asset platform

/-- The asset for a platform in the release of a tag. -/
def releaseAsset (tag platform : String) : Url.Resource where
  host := "github.com"
  path := Url.bytes ("/" ++ Release.repository.text ++ "/releases/download/" ++ tag ++ "/" ++
    Platform.asset platform).toList
  parameters := []

theorem assetUrl_eq (token : Option String) (tag platform : String) :
    (Release.remote token).assetUrl (GitHub.versionOfTag tag) (Platform.asset platform) =
      releaseAddress (marked tag) platform := by
  apply String.toList_inj.1
  simp [GitHub.assetUrl, releaseAddress, marked, Release.remote, GitHub.of]

theorem releaseAddress_inj {tag tag' platform : String} :
    releaseAddress tag platform = releaseAddress tag' platform ↔ tag = tag' := by
  constructor
  · intro h
    have hlist := congrArg String.toList h
    apply String.toList_inj.1
    simpa [releaseAddress] using hlist
  · rintro rfl
    rfl

/-- The address of an asset asks for it exactly if its tag is literal. -/
theorem releaseAddress_asks_iff {os arch tag platform : String}
    (hplatform : Platform.find? os arch = some platform) :
    Url.Asks (releaseAddress tag platform) (releaseAsset tag platform) ↔
      Url.Literal tag.toList := by
  have hhost : Url.IsHost "github.com" := by
    constructor <;> decide
  have hplain : ∀ text ∈ ["hayaokimura", "picoruby-gem-installer", "releases", "download"],
      Url.Literal text.toList := by
    intro text htext
    refine GitHub.literal_of_no_marks ?_ ?_ ?_ <;> (revert text; decide)
  have hasset : Url.Literal (Platform.asset platform).toList := by
    -- there are four platforms
    rw [Platform.find?] at hplatform
    split at hplatform
    · next system processor hsystem hprocessor =>
      cases hplatform
      have hsystems : system ∈ ["linux", "darwin"] := by
        unfold Platform.system? at hsystem
        split at hsystem <;> simp_all
      have hprocessors : processor ∈ ["x86_64", "arm64"] := by
        unfold Platform.processor? at hprocessor
        split at hprocessor <;> simp_all
      simp only [List.mem_cons, List.not_mem_nil, or_false] at hsystems hprocessors
      rcases hsystems with rfl | rfl <;> rcases hprocessors with rfl | rfl <;>
        exact GitHub.literal_of_no_marks (by decide +kernel) (by decide +kernel) (by decide +kernel)
    · cases hplatform
  let text := "hayaokimura".toList ++ '/' :: ("picoruby-gem-installer".toList ++ '/' ::
    ("releases".toList ++ '/' :: ("download".toList ++ '/' ::
      (tag.toList ++ '/' :: (Platform.asset platform).toList))))
  have hurl : releaseAddress tag platform = Url.onHost "github.com" text := by
    apply String.toList_inj.1
    simp [releaseAddress, Url.onHost, text, GitHub.assetBase, Release.repository, Repository.text]
  have hresource : releaseAsset tag platform = ⟨"github.com", Url.bytes ('/' :: text), []⟩ := by
    simp [releaseAsset, text, Release.repository, Repository.text]
  rw [hurl, hresource, Url.asks_place_iff hhost text, Url.literal_append_slash,
    Url.literal_append_slash, Url.literal_append_slash, Url.literal_append_slash,
    Url.literal_append_slash]
  simp only [hplain _ (List.mem_cons_self ..), hplain "picoruby-gem-installer" (by simp),
    hplain "releases" (by simp), hplain "download" (by simp), hasset, true_and, and_true]

namespace Commands

variable {s : Surroundings}

/-! ### The requests of an update -/

/-- What an update asks for when it installs a release. -/
def assetRequests (s : Surroundings) (latest : String) : List Request :=
  match Platform.find? s.system s.processor with
  | none => []
  | some platform =>
    ((Release.remote s.token).downloadAsset s.network latest (Platform.asset platform)).requests

theorem replaceExecutable_requests (s : Surroundings) (latest : String) (bytes : ByteArray) :
    (replaceExecutable s latest bytes).Keeps Host.requests := by
  unfold replaceExecutable
  split
  · exact .pure _
  · refine .bind .disk fun d => .bind (Act.print_requests _) fun _ =>
      .bind (install_requests _ _) fun answer => ?_
    cases answer with
    | error e => exact .pure _
    | ok _ =>
      exact .bind (Act.print_requests _) fun _ => .bind (Act.print_requests _) fun _ =>
        .bind (Act.print_requests _) fun _ => .pure _

theorem requests_installRelease (s : Surroundings) (latest : String) (h : Host) :
    ((installRelease s (Release.remote s.token) latest).after h).requests =
      h.requests ++ assetRequests s latest := by
  have hprint : ∀ line (h : Host), ((Act.print line).after h).requests = h.requests :=
    fun line => Act.print_requests line
  rw [installRelease, assetRequests]
  cases Platform.find? s.system s.processor with
  | none => exact (List.append_nil _).symm
  | some platform =>
    dsimp only
    simp only [Act.after_bind, answer_perform]
    cases ((Release.remote s.token).downloadAsset s.network latest
        (Platform.asset platform)).outcome with
    | error cause =>
      dsimp only
      rw [Act.after_pure, requests_after_perform, hprint, hprint]
    | ok bytes =>
      dsimp only
      rw [Act.after_bind, replaceExecutable_requests, hprint, requests_after_perform, hprint,
        hprint]

/-- An update asks for the latest release, and then for an asset if it is to install a newer
one. -/
theorem requests_update (s : Surroundings) (check : Bool) (h : Host) :
    ((update s check).after h).requests =
      h.requests ++ ((Release.remote s.token).latestRelease s.network).requests ++
        match ((Release.remote s.token).latestRelease s.network).outcome with
        | .error _ => []
        | .ok latest =>
          if Version.isNewer latest Version.current = true ∧ check = false then
            assetRequests s latest
          else [] := by
  have hprint : ∀ line (h : Host), ((Act.print line).after h).requests = h.requests :=
    fun line => Act.print_requests line
  simp only [update, Act.after_bind, answer_perform]
  cases ((Release.remote s.token).latestRelease s.network).outcome with
  | error cause => simp [requests_after_perform, hprint]
  | ok latest =>
    cases hnewer : Version.isNewer latest Version.current <;> cases check <;>
      simp [requests_after_perform, requests_installRelease, hprint, hnewer]

/-- Besides the latest release an update asks for nothing but the asset for this machine, and
for that under the tag of the latest release with a `v` at its front.  So it is asked for under
that tag exactly if the tag begins with a `v`; whether the address is read as the one of that
asset depends on the marks in the tag.  A newer release is always gone on to ask for. -/
theorem update_asks (s : Surroundings) (check : Bool) (h : Host) :
    ∃ sent, ((update s check).after h).requests = h.requests ++ sent ∧
      (∀ r ∈ sent, r.url = (Release.remote s.token).latestReleaseUrl ∨
        ∃ tag platform, s.Tagged tag ∧ Platform.find? s.system s.processor = some platform ∧
          check = false ∧
          Version.isNewer (GitHub.versionOfTag tag) Version.current = true ∧
          r.url = releaseAddress (marked tag) platform ∧
          (r.url = releaseAddress tag platform ↔ ∃ rest, tag.toList = 'v' :: rest) ∧
          (Url.Asks r.url (releaseAsset (marked tag) platform) ↔
            Url.Literal (marked tag).toList)) ∧
      ∀ tag platform, s.Tagged tag → badHeader? s.lookUp = none →
        Platform.find? s.system s.processor = some platform → check = false →
        Version.isNewer (GitHub.versionOfTag tag) Version.current = true →
          ∃ r ∈ sent, r.url = releaseAddress (marked tag) platform := by
  refine ⟨_, (requests_update s check h).trans (List.append_assoc _ _ _), fun r hr => ?_,
    fun tag platform htag hheader hplatform hcheck hnewer => ?_⟩
  · rcases List.mem_append.1 hr with hr | hr
    · rw [GitHub.requests_latestRelease] at hr
      exact Or.inl (Network.url_of_mem_send hr)
    · split at hr
      · cases hr
      · next latest hlatest =>
        split at hr
        · next hgo =>
          obtain ⟨-, tag, htag, rfl⟩ := Surroundings.latest_iff_tagged.1 hlatest
          rw [assetRequests] at hr
          split at hr
          · cases hr
          · next platform hplatform =>
            have hurl : r.url = releaseAddress (marked tag) platform :=
              (Network.url_of_mem_send hr).trans (assetUrl_eq s.token tag platform)
            rw [hurl]
            exact Or.inr ⟨tag, platform, htag, hplatform, hgo.2, hgo.1, rfl,
              releaseAddress_inj.trans marked_eq_iff, releaseAddress_asks_iff hplatform⟩
        · cases hr
  · have hlatest := Surroundings.latest_iff_tagged.2 ⟨hheader, tag, htag, rfl⟩
    let request := (Release.remote s.token).request GitHub.acceptBytes
      ((Release.remote s.token).assetUrl (GitHub.versionOfTag tag) (Platform.asset platform))
    have hsendable : badHeader? request = none := hheader
    refine ⟨sentRequest request, List.mem_append_right _ ?_, assetUrl_eq s.token tag platform⟩
    rw [Surroundings.Latest] at hlatest
    rw [hlatest]
    dsimp only
    rw [if_pos ⟨hnewer, hcheck⟩, assetRequests, hplatform]
    dsimp only
    rw [GitHub.downloadAsset, Network.requested_send, if_pos hsendable]
    exact List.mem_singleton_self _

/-! A network whose latest release has a tag without a `v`. -/

/-- What the network answers about a latest release that is tagged without a `v`. -/
def untaggedText : String := "\x7b\"tag_name\": \"0.6.0\"\x7d"

/-- The surroundings of an executable for which there is a newer release without a `v`. -/
def untagged : Surroundings :=
  { outdated with
    network := Network.ofAnswers [
      ("https://api.github.com/repos/hayaokimura/picoruby-gem-installer/releases/latest",
        .answered 200 untaggedText.toUTF8)] }

theorem tagged_untagged : untagged.Tagged "0.6.0" := by
  have hurl : (Release.remote none).latestReleaseUrl =
      "https://api.github.com/repos/hayaokimura/picoruby-gem-installer/releases/latest" := by
    decide +kernel
  have hread : (Json.parse? untaggedText).bind (·.fields? ["tag_name"]) = some ["0.6.0"] := by
    decide +kernel
  obtain ⟨json, hjson, hfields⟩ := Option.bind_eq_some_iff.1 hread
  refine ⟨untaggedText.toUTF8, json, ?_, ?_, hfields⟩
  · rw [show untagged.token = none from rfl, hurl]
    simp [untagged, Network.ofAnswers, Network.answer]
  · rw [GitHub.bodyJson?, fromUTF8?_toUTF8, Option.bind_some]
    exact hjson

/-- The asset of the release `0.6.0` is asked for under the tag `v0.6.0`. -/
theorem update_asks_untagged :
    untagged.Tagged "0.6.0" ∧
    ∃ r ∈ ((update untagged false).after outdatedHost).requests,
      r.url = releaseAddress "v0.6.0" "linux-x86_64" ∧
        r.url ≠ releaseAddress "0.6.0" "linux-x86_64" ∧
        Url.Asks r.url (releaseAsset "v0.6.0" "linux-x86_64") := by
  obtain ⟨sent, hsent, -, hgoes⟩ := update_asks untagged false outdatedHost
  have hmarked : marked "0.6.0" = "v0.6.0" := by decide
  have hversion : GitHub.versionOfTag "0.6.0" = "0.6.0" := by decide
  have hplatform : Platform.find? untagged.system untagged.processor = some "linux-x86_64" := by
    decide
  obtain ⟨r, hr, hurl⟩ := hgoes "0.6.0" "linux-x86_64" tagged_untagged
    (badHeader?_outdated _ _) hplatform rfl (hversion ▸ newer_outdated)
  rw [hmarked] at hurl
  refine ⟨tagged_untagged, r, hsent ▸ List.mem_append_right _ hr, hurl, fun h => ?_, ?_⟩
  · have hsame := releaseAddress_inj.1 (hurl.symm.trans h)
    revert hsame
    decide
  · rw [hurl]
    exact (releaseAddress_asks_iff hplatform).2
      (GitHub.literal_of_no_marks (by decide) (by decide) (by decide))

end Commands

end GemCourier
