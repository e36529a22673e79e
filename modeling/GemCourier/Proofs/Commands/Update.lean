/-
GemCourier/Proofs/Commands/Update.lean

What an update does to the disk.

Looking up the latest release, comparing versions and downloading leave the disk
alone.  So an update either leaves the disk as it was, or it ends in putting what
it downloaded in the place of the executable (`update_cases`), and what that can
come to is known.

Main result: `update_replaces`.
-/
import GemCourier.Commands.Update
import GemCourier.Proofs.Release.Replacement
import GemCourier.Proofs.Remote.Entries

namespace GemCourier

open Remote Release

/-- The version of the latest release, as the network tells it. -/
def Surroundings.Latest (s : Surroundings) (latest : String) : Prop :=
  ((Release.remote s.token).latestRelease s.network).outcome = .ok latest

/-- The latest release has this version, there is an asset of it for this machine, and asking for
the asset is answered with success and these bytes. -/
def Surroundings.Offers (s : Surroundings) (latest : String) (bytes : ByteArray) : Prop :=
  s.Latest latest ∧ ∃ platform, Platform.find? s.system s.processor = some platform ∧
    s.network.answer ((Release.remote s.token).assetUrl latest (Platform.asset platform)) =
      .answered 200 bytes

namespace Remote

/-- What is sent with success was answered with the status of one. -/
theorem Network.answer_of_send {network : Network} {r : Request} {body : ByteArray}
    (h : (network.send r).outcome = .ok body) : network.answer r.url = .answered 200 body := by
  rw [send] at h
  split at h
  · cases h
  · split at h
    · next status body' hanswer =>
      split at h
      · next hstatus =>
        cases h
        rw [hanswer, hstatus]
      · cases h
    · cases h

end Remote

namespace Commands

variable {s : Surroundings} {latest : String} {bytes : ByteArray} {check : Bool}

/-! ### The course of an update -/

/-- The answer of an update that ends in an installation. -/
def UpdateError.ofInstall : Except InstallError Unit → Except UpdateError Unit
  | .error e => .error (.installation e)
  | .ok () => .ok ()

theorem replaceExecutable_eq (latest : String) (bytes : ByteArray) {target : Path} (htarget : s.executable = .ok target) (h : Host) :
    ∃ mid : Host, mid.disk = h.disk ∧
      (replaceExecutable s latest bytes).answer h =
        UpdateError.ofInstall ((install bytes target).answer mid) ∧
      ((replaceExecutable s latest bytes).after h).disk = ((install bytes target).after mid).disk := by
  let mid := (Act.print (.field "Install path" (h.disk.describe target))).after h
  refine ⟨mid, rfl, ?_⟩
  simp only [replaceExecutable, htarget, Act.answer_bind, Act.after_bind, Act.answer_disk,
    Act.after_disk]
  cases hinstall : (install bytes target).answer mid with
  | error e => exact ⟨rfl, rfl⟩
  | ok _ => exact ⟨rfl, rfl⟩

theorem installRelease_eq {releases : GitHub} {platform : String} {target : Path}
    (hplatform : Platform.find? s.system s.processor = some platform)
    (hasset : (releases.downloadAsset s.network latest (Platform.asset platform)).outcome = .ok bytes)
    (htarget : s.executable = .ok target) (h : Host) :
    ∃ mid : Host, mid.disk = h.disk ∧
      (installRelease s releases latest).answer h =
        UpdateError.ofInstall ((install bytes target).answer mid) ∧
      ((installRelease s releases latest).after h).disk =
        ((install bytes target).after mid).disk := by
  let asked := (perform (releases.downloadAsset s.network latest (Platform.asset platform))).after
    ((Act.print (.plain "Downloading...")).after
      ((Act.print (.field "Platform" platform)).after h))
  obtain ⟨mid, hmid, hanswer, hafter⟩ := replaceExecutable_eq latest bytes htarget
    ((Act.print (.plain s!"Downloaded {bytes.size} bytes")).after asked)
  refine ⟨mid, by simp [hmid, asked], ?_⟩
  simp only [installRelease, hplatform, Act.answer_bind, Act.after_bind, answer_perform, hasset]
  exact ⟨hanswer, hafter⟩

/-- Installing a release leaves the disk as it was and fails, or ends in the installation of the
asset for this machine. -/
theorem installRelease_cases (s : Surroundings) (releases : GitHub) (latest : String) (h : Host) :
    (((installRelease s releases latest).after h).disk = h.disk ∧
      ∃ e, (installRelease s releases latest).answer h = .error e) ∨
    ∃ platform bytes target, Platform.find? s.system s.processor = some platform ∧
      (releases.downloadAsset s.network latest (Platform.asset platform)).outcome = .ok bytes ∧
      s.executable = .ok target := by
  cases hplatform : Platform.find? s.system s.processor with
  | none =>
    simp only [installRelease, hplatform]
    exact Or.inl ⟨rfl, _, rfl⟩
  | some platform =>
    cases hasset : (releases.downloadAsset s.network latest (Platform.asset platform)).outcome with
    | error cause =>
      simp only [installRelease, hplatform, Act.answer_bind, Act.after_bind, answer_perform, hasset]
      exact Or.inl ⟨disk_after_perform _, _, rfl⟩
    | ok bytes =>
      cases htarget : s.executable with
      | error fault =>
        refine Or.inl ⟨?_, .installation (.locate fault), ?_⟩ <;>
          simp [installRelease, hplatform, hasset, replaceExecutable, htarget]
      | ok target => exact Or.inr ⟨platform, bytes, target, rfl, hasset, rfl⟩

/-- An update to a newer release goes on to install it. -/
theorem update_newer (hlatest : s.Latest latest)
    (hnewer : Version.isNewer latest Version.current = true) (h : Host) :
    ∃ mid : Host, mid.disk = h.disk ∧
      (update s false).answer h = (installRelease s (Release.remote s.token) latest).answer mid ∧
      (update s false).after h = (installRelease s (Release.remote s.token) latest).after mid := by
  let asked := (perform ((Release.remote s.token).latestRelease s.network)).after
    ((Act.print (.plain "Checking for updates...")).after
      ((Act.print .blank).after ((Act.print (.header "picogem update")).after h)))
  let told := (Act.print (.plain "New version available!")).after
    ((Act.print .blank).after ((Act.print (.field "Latest version" latest)).after
      ((Act.print (.field "Current version" Version.current)).after asked)))
  rw [Surroundings.Latest] at hlatest
  refine ⟨told, by simp [told, asked], ?_⟩
  simp only [update, Act.answer_bind, Act.after_bind, answer_perform, hlatest, hnewer,
    Bool.not_true, Bool.false_eq_true, if_false]
  exact ⟨rfl, rfl⟩

/-- An update leaves the disk as it was, or ends in the installation of what is offered. -/
theorem update_cases (s : Surroundings) (check : Bool) (h : Host) :
    (((update s check).after h).disk = h.disk ∧ ((update s check).answer h = .ok () →
      ∃ latest, s.Latest latest ∧ (check = true ∨ Version.isNewer latest Version.current = false))) ∨
    ∃ latest bytes target, ∃ mid : Host, check = false ∧ s.Offers latest bytes ∧
      Version.isNewer latest Version.current = true ∧ s.executable = .ok target ∧
      mid.disk = h.disk ∧
      (update s check).answer h = UpdateError.ofInstall ((install bytes target).answer mid) ∧
      ((update s check).after h).disk = ((install bytes target).after mid).disk := by
  cases hlatest : ((Release.remote s.token).latestRelease s.network).outcome with
  | error cause =>
    refine Or.inl ?_
    simp [update, hlatest]
  | ok latest =>
    cases hnewer : Version.isNewer latest Version.current with
    | false =>
      refine Or.inl ⟨?_, fun _ => ⟨latest, hlatest, Or.inr hnewer⟩⟩
      simp [update, hlatest, hnewer]
    | true =>
      cases check with
      | true =>
        refine Or.inl ⟨?_, fun _ => ⟨latest, hlatest, Or.inl rfl⟩⟩
        simp [update, hlatest, hnewer]
      | false =>
        obtain ⟨told, htold, hanswer, hafter⟩ := update_newer hlatest hnewer h
        rw [hanswer, hafter]
        rcases installRelease_cases s (Release.remote s.token) latest told with
          ⟨hsame, e, hfailed⟩ | ⟨platform, bytes, target, hplatform, hasset, htarget⟩
        · refine Or.inl ⟨hsame.trans htold, fun hok => ?_⟩
          cases hfailed.symm.trans hok
        · have hoffer : s.Offers latest bytes :=
            ⟨hlatest, platform, hplatform, Network.answer_of_send hasset⟩
          obtain ⟨mid, hmid, hinstalled, hend⟩ := installRelease_eq hplatform hasset htarget told
          exact Or.inr ⟨latest, bytes, target, mid, rfl, hoffer, hnewer, htarget,
            hmid.trans htold, hinstalled, hend⟩

/-! ### What is replaced -/

/-- An update changes nothing but the executable and its staging file.  The executable stays what
it was or becomes the file that was downloaded, and that only if the update was not only to check,
the latest release is newer and its asset was answered.  A failure leaves it what it was.  After a
success it is what it was because there was nothing to install, or it is the new file, can be
run, and no staging file is left. -/
theorem update_replaces (s : Surroundings) (check : Bool) {h : Host} (hd : h.disk.WellFormed)
    (hlinks : ∀ target, s.executable = .ok target →
      ¬ h.disk.IsLink target ∧ ¬ h.disk.IsLink (stagingPath target)) :
    let now := ((update s check).after h).disk
    (∀ loc, now.node? loc ≠ h.disk.node? loc → ∃ target, s.executable = .ok target ∧
      (h.disk.Reaches target loc ∨ h.disk.Reaches (stagingPath target) loc)) ∧
    (∀ target loc, s.executable = .ok target → h.disk.Reaches target loc →
      now.node? loc = h.disk.node? loc ∨ check = false ∧ ∃ latest bytes t m,
        s.Offers latest bytes ∧ Version.isNewer latest Version.current = true ∧
          now.node? loc = some (.file bytes t m)) ∧
    (∀ e, (update s check).answer h = .error e →
      (∀ path fault, e ≠ .installation (.permission path fault)) →
      ∀ target loc, s.executable = .ok target → h.disk.Reaches target loc →
        now.node? loc = h.disk.node? loc) ∧
    ((update s check).answer h = .ok () →
      (now = h.disk ∧ ∃ latest, s.Latest latest ∧
        (check = true ∨ Version.isNewer latest Version.current = false)) ∨
      ∃ target loc latest bytes t, s.executable = .ok target ∧ h.disk.Reaches target loc ∧
        s.Offers latest bytes ∧ now.node? loc = some (.file bytes t 0o755) ∧
          ∀ staged, h.disk.Reaches (stagingPath target) staged → now.node? staged = none) := by
  intro now
  rcases update_cases s check h with ⟨hsame, hok⟩ |
    ⟨latest, bytes, target, mid, hcheck, hoffer, hnewer, htarget, hmid, hanswer, hafter⟩
  · have hnow : ∀ loc, now.node? loc = h.disk.node? loc := fun loc => by
      rw [show now = h.disk from hsame]
    exact ⟨fun loc hloc => absurd (hnow loc) hloc, fun _ loc _ _ => Or.inl (hnow loc),
      fun _ _ _ _ loc _ _ => hnow loc, fun hanswer => Or.inl ⟨hsame, hok hanswer⟩⟩
  · obtain ⟨hpath, hstaged⟩ := hlinks target htarget
    rw [← hmid] at hd hpath hstaged
    have hinstall := install_replaces bytes hd hpath hstaged
    rw [hmid, ← hafter] at hinstall
    change Replaces bytes target h.disk _ now at hinstall
    rw [hanswer]
    clear_value now
    -- what is said about the executable is said about the one target there is
    have htargets : ∀ {target'}, s.executable = .ok target' → target' = target := fun h' =>
      Except.ok.inj (h'.symm.trans htarget)
    generalize (install bytes target).answer mid = reply at hinstall
    cases hinstall with
    | unstaged =>
      exact ⟨fun loc hloc => absurd rfl hloc, fun _ _ _ _ => Or.inl rfl, fun _ _ _ _ _ _ _ => rfl,
        fun hok => by cases hok⟩
    | unmoved hreaches haside hothers =>
      -- the staging file is all that has changed, and it is not where the target leads
      have hsame : ∀ target' loc, s.executable = .ok target' → h.disk.Reaches target' loc →
          now.node? loc = h.disk.node? loc := by
        intro target' loc htarget' hloc
        rw [htargets htarget'] at hloc
        exact hothers loc fun e => haside (e ▸ hloc)
      refine ⟨fun loc hloc => ⟨target, htarget, Or.inr ?_⟩, fun _ _ h₁ h₂ => Or.inl (hsame _ _ h₁ h₂),
        fun _ _ _ => hsame, fun hok => by cases hok⟩
      obtain rfl := Classical.byContradiction fun hne => hloc (hothers loc hne)
      exact hreaches
    | @replaced _ loc staged t hpathReaches hreaches hnew hgone hothers =>
      refine ⟨fun other hother => ⟨target, htarget, ?_⟩, fun target' other htarget' hother => ?_,
        fun _ herror => ?_, fun _ => Or.inr ⟨target, loc, latest, bytes, t, htarget,
          hpathReaches, hoffer, hnew, fun staged' hstaged' => ?_⟩⟩
      · by_cases hloc : other = loc
        · exact Or.inl (hloc ▸ hpathReaches)
        · by_cases hstaged' : other = staged
          · exact Or.inr (hstaged' ▸ hreaches)
          · exact absurd (hothers other hloc hstaged') hother
      · rw [htargets htarget'] at hother
        rw [hother.unique hpathReaches]
        exact Or.inr ⟨hcheck, latest, bytes, t, _, hoffer, hnewer, hnew⟩
      · cases herror
      · rw [hstaged'.unique hreaches]
        exact hgone

/-! A machine on which an older executable lies, and a network that offers a newer one. -/

/-- What the network answers about the latest release. -/
def releaseText : String := "\x7b\"tag_name\": \"v0.6.0\"\x7d"

/-- The surroundings of an executable for which there is a newer release. -/
def outdated : Surroundings where
  network := Network.ofAnswers [
    ("https://api.github.com/repos/hayaokimura/picoruby-gem-installer/releases/latest",
      .answered 200 releaseText.toUTF8),
    ("https://github.com/hayaokimura/picoruby-gem-installer/releases/download/v0.6.0/" ++
      "picogem-linux-x86_64", .answered 200 "new".toUTF8)]
  token := none
  compiler := Bytecode.Compiler.trial []
  system := "linux"
  processor := "x86_64"
  executable := .ok ⟨"/bin/picogem"⟩

/-- The host with the older executable. -/
def outdatedHost : Host where
  disk := {
    nodes := [(["bin"], .folder), (["bin", "picogem"], .file "old".toUTF8 5 0o755)]
    start := []
    clock := 10 }
  transcript := []

theorem fromUTF8?_toUTF8 (text : String) : String.fromUTF8? text.toUTF8 = some text := by
  rw [String.fromUTF8?]
  simp [text.isValidUTF8]
  rfl

theorem send_ok {network : Network} {r : Request} {body : ByteArray}
    (hheader : badHeader? r = none) (hanswer : network.answer r.url = .answered 200 body) :
    (network.send r).outcome = .ok body := by
  simp [Network.send, hheader, hanswer]

theorem badHeader?_outdated (accept url : String) :
    badHeader? ((Release.remote outdated.token).request accept url) = none := by
  simp [badHeader?, GitHub.request, Release.remote, GitHub.of, GitHub.usable, outdated]

theorem latest_outdated : outdated.Latest "0.6.0" := by
  have hurl : (Release.remote none).latestReleaseUrl =
      "https://api.github.com/repos/hayaokimura/picoruby-gem-installer/releases/latest" := by
    decide +kernel
  have hanswer : outdated.network.answer (Release.remote outdated.token).latestReleaseUrl =
      .answered 200 releaseText.toUTF8 := by
    rw [show outdated.token = none from rfl, hurl]
    simp [outdated, Network.ofAnswers, Network.answer]
  have hsent : (outdated.network.send ((Release.remote outdated.token).request GitHub.acceptJson
      (Release.remote outdated.token).latestReleaseUrl)).outcome = .ok releaseText.toUTF8 := by
    refine send_ok (badHeader?_outdated _ _) ?_
    rw [GitHub.request, hanswer]
  have hread : (Json.parse? releaseText).bind (·.fields? ["tag_name"]) = some ["v0.6.0"] := by
    decide +kernel
  obtain ⟨json, hjson, hfields⟩ := Option.bind_eq_some_iff.1 hread
  have hbody : GitHub.bodyJson? releaseText.toUTF8 = some json := by
    rw [GitHub.bodyJson?, fromUTF8?_toUTF8, Option.bind_some]
    exact hjson
  have htag : GitHub.versionOfTag "v0.6.0" = "0.6.0" := by decide
  rw [Surroundings.Latest, GitHub.latestRelease, GitHub.decoded, Reply.andThen, hsent]
  simp only [hbody, hfields, htag]

theorem asset_outdated : outdated.network.answer ((Release.remote outdated.token).assetUrl "0.6.0"
    (Platform.asset "linux-x86_64")) = .answered 200 "new".toUTF8 := by
  have hurl : (Release.remote none).assetUrl "0.6.0" (Platform.asset "linux-x86_64") =
      "https://github.com/hayaokimura/picoruby-gem-installer/releases/download/v0.6.0/" ++
        "picogem-linux-x86_64" := by
    decide +kernel
  rw [show outdated.token = none from rfl, hurl]
  simp [outdated, Network.ofAnswers, Network.answer, List.lookup_cons]

theorem eq_new_of_offers {latest : String} {bytes : ByteArray} (h : outdated.Offers latest bytes) :
    bytes = "new".toUTF8 := by
  obtain ⟨hlatest, platform, hplatform, hanswer⟩ := h
  obtain rfl : latest = "0.6.0" := Except.ok.inj (hlatest.symm.trans latest_outdated)
  have hlinux : Platform.find? outdated.system outdated.processor = some "linux-x86_64" := by
    decide
  obtain rfl : platform = "linux-x86_64" := Option.some.inj (hplatform.symm.trans hlinux)
  injection hanswer.symm.trans asset_outdated

theorem newer_outdated : Version.isNewer "0.6.0" Version.current = true := by
  have hlatest : Version.numbers "0.6.0" = [0, 6, 0] := by decide +kernel
  have hcurrent : Version.numbers Version.current = [0, 5, 0] := by decide +kernel
  rw [Version.isNewer, Version.order, hlatest, hcurrent, Version.compareNumbers,
    Version.compareNumbers]
  rfl

theorem wellFormed_outdatedHost : outdatedHost.disk.WellFormed := by decide

theorem link?_outdatedHost (loc : Location) : outdatedHost.disk.link? loc = none :=
  Disk.link?_eq_none (by simp [outdatedHost]) loc

theorem not_isLink_outdatedHost (p : Path) : ¬ outdatedHost.disk.IsLink p := by
  rintro ⟨loc, target, hlook⟩
  have hlink := Disk.link?_eq_some_iff.2 (Disk.lookUp_ok_iff.1 hlook).2
  rw [link?_outdatedHost] at hlink
  cases hlink

/-- The update of the older executable succeeds. -/
theorem update_outdated : (update outdated false).answer outdatedHost = .ok () := by
  obtain ⟨told, htold, hanswer, -⟩ := update_newer latest_outdated newer_outdated outdatedHost
  have hasset : ((Release.remote outdated.token).downloadAsset outdated.network "0.6.0"
      (Platform.asset "linux-x86_64")).outcome = .ok "new".toUTF8 := by
    refine send_ok (badHeader?_outdated _ _) ?_
    rw [GitHub.request, asset_outdated]
  obtain ⟨mid, hmid, hinstall, -⟩ := installRelease_eq (s := outdated)
    (show Platform.find? "linux" "x86_64" = some "linux-x86_64" by decide) hasset rfl told
  have hdisk : mid.disk = outdatedHost.disk := hmid.trans htold
  have henters : mid.disk.Enters [.root, .name "bin"] ["bin"] := by
    rw [hdisk]
    exact ⟨by decide, _, .down (by decide) (by decide) .done⟩
  have hneat : (Path.mk "/bin/picogem").Neat "picogem" :=
    ⟨by constructor <;> decide, ["", "bin"], by decide⟩
  have hentry : ∀ n ∈ ["picogem", "picogem" ++ ".new"], mid.disk.link? (["bin"] ++ [n]) = none ∧
      mid.disk.node? (["bin"] ++ [n]) ≠ some .folder := by
    rw [hdisk]
    exact fun n hn => ⟨link?_outdatedHost _, by revert n; decide⟩
  have hwf : mid.disk.WellFormed := hdisk ▸ wellFormed_outdatedHost
  have hok := install_ok "new".toUTF8 hwf henters hneat (by decide) (by decide) hentry
  rw [hanswer, hinstall, hok]
  rfl

theorem update_replaces_outdated :
    outdatedHost.disk.WellFormed ∧
    (∀ target, outdated.executable = .ok target → ¬ outdatedHost.disk.IsLink target ∧
      ¬ outdatedHost.disk.IsLink (stagingPath target)) ∧
    (update outdated false).answer outdatedHost = .ok () ∧
    (∃ t, ((update outdated false).after outdatedHost).disk.node? ["bin", "picogem"] =
      some (.file "new".toUTF8 t 0o755)) ∧
    ((update outdated false).after outdatedHost).disk.node? ["bin", "picogem.new"] = none := by
  have hlinks : ∀ target, outdated.executable = .ok target → ¬ outdatedHost.disk.IsLink target ∧
      ¬ outdatedHost.disk.IsLink (stagingPath target) := fun _ _ =>
    ⟨not_isLink_outdatedHost _, not_isLink_outdatedHost _⟩
  obtain ⟨-, -, -, hok⟩ := update_replaces outdated false wellFormed_outdatedHost hlinks
  refine ⟨wellFormed_outdatedHost, hlinks, update_outdated, ?_⟩
  rcases hok update_outdated with ⟨-, latest, hlatest, hnone⟩ |
    ⟨target, loc, latest, bytes, t, htarget, hreaches, hoffer, hnew, hgone⟩
  · -- there is a newer release, so something was installed
    obtain rfl : latest = "0.6.0" := Except.ok.inj (hlatest.symm.trans latest_outdated)
    rw [newer_outdated] at hnone
    simp at hnone
  · obtain rfl : target = ⟨"/bin/picogem"⟩ := (Except.ok.inj htarget).symm
    have hfind : outdatedHost.disk.find .through ⟨"/bin/picogem"⟩ =
        .ok (.found ["bin", "picogem"]) := by decide +kernel
    have hstaged : outdatedHost.disk.find .through (stagingPath ⟨"/bin/picogem"⟩) =
        .ok (.absent ["bin", "picogem.new"]) := by decide +kernel
    have hpath := Disk.reaches_of_find (Or.inl (by decide)) hfind
    rw [hreaches.unique hpath, eq_new_of_offers hoffer] at hnew
    exact ⟨⟨t, hnew⟩, hgone _ (Disk.reaches_of_find (Or.inl (by decide)) hstaged)⟩

end Commands

end GemCourier
