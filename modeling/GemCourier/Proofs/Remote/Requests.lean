/-
GemCourier/Proofs/Remote/Requests.lean

What is sent on the way to an answer.

A request goes out once if its header can be sent, and not at all otherwise; reading
the answer sends nothing more.  So what a repository is asked comes to its own
addresses, none of which is that of a latest release, and a download sends what its
source sends.

A tree is downloaded as its source is: how far the tree reaches does not matter.

Main results: `Network.requested_send`, `Source.adds_download`, `GitHub.sends_tree`,
`GitHub.tree_toSource_eq`.
-/
import GemCourier.Proofs.Host.Adding
import GemCourier.Proofs.Remote.Entries
import GemCourier.Remote.GitHub

namespace GemCourier.Remote

/-! ### Replies -/

/-- The requests among what happened on the way to an answer. -/
def Reply.requests {α : Type} (reply : Reply α) : List Request :=
  (reply.incidents.map Incident.event).filterMap Event.request?

section Performing

variable {α : Type} {reply : Reply α} {allowed : Request → Prop}

/-- Carrying out a reply adds what happened on the way to the transcript. -/
theorem after_perform (reply : Reply α) (h : Host) :
    (perform reply).after h = ⟨h.disk, h.transcript ++ reply.incidents.map Incident.event⟩ := by
  have hall : ∀ (incidents : List Incident) (h : Host),
      (incidents.forM fun i => Act.record i.event : Act Unit).after h =
        ⟨h.disk, h.transcript ++ incidents.map Incident.event⟩ := by
    intro incidents
    induction incidents with
    | nil =>
      intro h
      rw [List.map_nil, List.append_nil]
      rfl
    | cons i rest ih =>
      intro h
      show (rest.forM fun i => Act.record i.event : Act Unit).after (h.record i.event) = _
      rw [ih, Host.record, List.map_cons, List.append_assoc]
      rfl
  exact hall reply.incidents h

theorem requests_after_perform (reply : Reply α) (h : Host) :
    ((perform reply).after h).requests = h.requests ++ reply.requests := by
  rw [after_perform, Host.requests, List.filterMap_append]
  rfl

theorem printed_after_perform (reply : Reply α) (h : Host) :
    ((perform reply).after h).printed = h.printed := by
  have hnone : (reply.incidents.map Incident.event).filterMap Event.line? = [] := by
    rw [List.filterMap_map, List.filterMap_eq_nil_iff]
    intro i _
    cases i <;> rfl
  rw [after_perform, Host.printed, List.filterMap_append, hnone]
  exact List.append_nil _

/-- A request among the events of a reply is one of its requests. -/
theorem requested_mem_iff {r : Request} :
    .requested r ∈ reply.incidents.map Incident.event ↔ r ∈ reply.requests := by
  rw [Reply.requests, List.mem_filterMap]
  constructor
  · exact fun h => ⟨_, h, rfl⟩
  · rintro ⟨e, he, hr⟩
    cases e <;> cases hr
    exact he

theorem adds_perform (hreply : ∀ r ∈ reply.requests, allowed r) :
    (perform reply).Adds allowed := by
  intro d
  refine ⟨reply.outcome, d, reply.incidents.map Incident.event,
    fun r hr => hreply r (requested_mem_iff.1 hr), fun transcript => ?_⟩
  exact Prod.ext rfl (after_perform reply ⟨d, transcript⟩)

theorem adds_ask (question : Question) (hreply : ∀ r ∈ reply.requests, allowed r) :
    (ask question reply).Adds allowed :=
  .bind (.record (by simp)) fun _ => adds_perform hreply

end Performing

/-! ### Downloads -/

namespace Source

variable {source : Source} {allowed : Request → Prop}

/-- Whatever the source is asked, it sends only allowed requests. -/
structure Sends (source : Source) (allowed : Request → Prop) : Prop where
  list : ∀ path, ∀ r ∈ (source.list path).requests, allowed r
  fetch : ∀ path, ∀ r ∈ (source.fetch path).requests, allowed r

theorem adds_save (localPath : Path) (bytes : ByteArray) :
    (save localPath bytes).Adds allowed := by
  refine .bind (Directory.adds_ensureParent _) fun answer => ?_
  cases answer with
  | error e => exact .pure _
  | ok _ =>
    refine .bind (.change _) fun answer => ?_
    cases answer <;> exact .pure _

theorem adds_refuse (remotePath name : String) : (refuse remotePath name).Adds allowed :=
  .bind (.note _ _) fun _ => .pure _

theorem adds_skipSubtree (remotePath : String) (cause : RemoteError) :
    (skipSubtree remotePath cause).Adds allowed :=
  .bind .disk fun _ => .bind (.note _ _) fun _ => .pure _

theorem adds_askListing (hsends : source.Sends allowed) (remotePath : String) :
    (source.askListing remotePath).Adds allowed :=
  .bind (.note _ _) fun _ => .bind (adds_ask _ (hsends.list remotePath)) fun _ => .pure _

theorem adds_downloadFile (hsends : source.Sends allowed) (remotePath : String)
    (localPath : Path) : (source.downloadFile remotePath localPath).Adds allowed := by
  refine .bind (.note _ _) fun _ => .bind (adds_ask _ (hsends.fetch remotePath)) fun answer => ?_
  cases answer with
  | error cause => exact .pure _
  | ok bytes => exact adds_save _ _

theorem adds_accountForFile (hsends : source.Sends allowed) (remotePath : String)
    (localPath : Path) : (source.accountForFile remotePath localPath).Adds allowed := by
  refine .bind (adds_downloadFile hsends _ _) fun answer => ?_
  cases answer with
  | ok size => exact .bind (.note _ _) fun _ => .pure _
  | error e => exact .bind .disk fun _ => .bind (.note _ _) fun _ => .pure _

/-- A download sends what its source sends. -/
theorem adds_downloadEntries (hsends : source.Sends allowed) (folder : String)
    (ends : source.Ends folder) (place : Path) (entries : List Entry)
    (listed : ∀ e ∈ entries, ∃ all, (source.list folder).outcome = .ok all ∧ e ∈ all) :
    (source.downloadEntries folder ends place entries listed).Adds allowed := by
  have hfollowed : ∀ {here others : Act FetchReport}, here.Adds allowed → others.Adds allowed →
      (followed here others).Adds allowed :=
    fun hhere hothers => hhere.bind fun _ => hothers.bind fun _ => .pure _
  refine downloadEntries_rule (P := fun _ _ _ step => step.Adds allowed) ?done ?refused ?file
    ?unlisted ?entered folder ends place entries listed
  case done => exact fun _ _ => .pure _
  case refused => exact fun _ _ _ _ _ _ hothers => hfollowed (adds_refuse _ _) hothers
  case file =>
    exact fun _ _ _ _ _ _ _ hothers => hfollowed (adds_accountForFile hsends _ _) hothers
  case unlisted =>
    exact fun _ _ _ _ _ _ _ _ _ hothers =>
      hfollowed ((adds_askListing hsends _).seqRight (adds_skipSubtree _ _)) hothers
  case entered =>
    exact fun _ _ _ _ _ _ _ _ _ _ hbelow hothers =>
      hfollowed ((adds_askListing hsends _).seqRight hbelow) hothers

theorem adds_download (hsends : source.Sends allowed) (remotePath : String)
    (ends : source.Ends remotePath) (localRoot : Path) :
    (source.download remotePath ends localRoot).Adds allowed := by
  refine .bind (adds_askListing hsends _) fun _ => ?_
  split
  · exact .pure _
  · exact .bind (adds_downloadEntries hsends _ _ _ _ _) fun _ => .pure _

end Source

/-- Trees of one source are downloaded alike. -/
theorem RemoteTree.download_congr {tree other : RemoteTree} (h : tree.toSource = other.toSource) :
    tree.download = other.download := by
  obtain ⟨source, reach, hreach⟩ := tree
  obtain ⟨source', reach', hreach'⟩ := other
  obtain rfl : source = source' := h
  rfl

/-! ### Requests over the network -/

/-- A request as it is sent. -/
def sentRequest (r : Request) : Request :=
  { r with authorization := r.authorization.map Text.stripped }

/-- A request is sent once if its header can be, and not at all otherwise. -/
theorem Network.requested_send (network : Network) (r : Request) :
    (network.send r).requests = if badHeader? r = none then [sentRequest r] else [] := by
  rw [Reply.requests, send]
  cases badHeader? r with
  | some header => rfl
  | none =>
    dsimp only
    split
    · split <;> rfl
    · rfl

/-- What is sent for a request has its address. -/
theorem Network.url_of_mem_send {network : Network} {r sent : Request}
    (h : sent ∈ (network.send r).requests) : sent.url = r.url := by
  rw [requested_send] at h
  split at h
  · rw [List.mem_singleton.1 h]
    rfl
  · cases h

/-- Sending a request depends on what its address answers, and on nothing else of the network. -/
theorem Network.send_congr {network other : Network} {r : Request}
    (h : other.answer r.url = network.answer r.url) : other.send r = network.send r := by
  rw [send, send, h]

namespace GitHub

variable {g : GitHub} {path : String}

/-- Reading an answer further sends nothing. -/
theorem requests_decoded {α : Type} {url : String} {read : Json → Option α}
    {incidents : Json → List Incident} {reply : Reply ByteArray}
    (hnotes : ∀ json, ((incidents json).map Incident.event).filterMap Event.request? = []) :
    (decoded url read incidents reply).requests = reply.requests := by
  have hmore : ∀ more : List Incident, (more.map Incident.event).filterMap Event.request? = [] →
      ((reply.incidents ++ more).map Incident.event).filterMap Event.request? =
        reply.requests := by
    intro more hmore
    rw [List.map_append, List.filterMap_append, hmore, List.append_nil]
    rfl
  rw [decoded, Reply.andThen]
  cases reply.outcome with
  | error e => rfl
  | ok body =>
    dsimp only
    cases bodyJson? body with
    | none => exact hmore [] rfl
    | some json =>
      dsimp only
      cases read json with
      | none => exact hmore [] rfl
      | some a => exact hmore _ (hnotes json)

theorem requests_list (g : GitHub) (network : Network) (path : String) :
    (g.list network path).requests =
      (network.send (g.request acceptJson (g.contentsUrl path))).requests := by
  refine requests_decoded fun json => ?_
  rw [List.filterMap_map, List.filterMap_eq_nil_iff]
  intro i hi
  obtain ⟨item, -, hitem⟩ := List.mem_filterMap.1 hi
  rw [Item.skipped?] at hitem
  split at hitem
  · rw [← Option.some.inj hitem]
    rfl
  · cases hitem

theorem requests_latestRelease (g : GitHub) (network : Network) :
    (g.latestRelease network).requests =
      (network.send (g.request acceptJson g.latestReleaseUrl)).requests :=
  requests_decoded fun _ => rfl

/-- A listing has a query, which the address of a latest release has not. -/
theorem contentsUrl_ne {url : String} (h : '?' ∉ url.toList) : g.contentsUrl path ≠ url := by
  rintro rfl
  apply h
  simp [contentsUrl]

/-- Files are read from another host than releases. -/
theorem rawUrl_ne (r : GitHub) : g.rawUrl path ≠ r.latestReleaseUrl := by
  intro h
  have hlist := congrArg String.toList h
  simp [rawUrl, latestReleaseUrl, rawBase, apiBase] at hlist

/-- Directories and files of a repository are asked for at other addresses than a latest release
whose own address has no query. -/
theorem sends_tree {r : GitHub} (hr : '?' ∉ r.latestReleaseUrl.toList) (network : Network) :
    (g.tree network).toSource.Sends fun sent => sent.url ≠ r.latestReleaseUrl where
  list := by
    intro path sent hsent
    have hurl := Network.url_of_mem_send ((requests_list g network path) ▸ hsent)
    rw [hurl]
    exact contentsUrl_ne hr
  fetch := by
    intro path sent hsent
    rw [Network.url_of_mem_send hsent]
    exact rawUrl_ne r

/-- The source of a repository is the same on networks that differ only about a latest release. -/
theorem tree_toSource_eq {r : GitHub} (hr : '?' ∉ r.latestReleaseUrl.toList)
    {network other : Network}
    (h : ∀ url, url ≠ r.latestReleaseUrl → other.answer url = network.answer url) :
    (g.tree other).toSource = (g.tree network).toSource := by
  have hlist : g.list other = g.list network := by
    funext path
    rw [list, list, Network.send_congr (h _ (contentsUrl_ne hr))]
  have hfetch : g.fetch other = g.fetch network := by
    funext path
    exact Network.send_congr (h _ (rawUrl_ne r))
  show Source.mk (g.list other) (g.fetch other) = Source.mk (g.list network) (g.fetch network)
  rw [hlist, hfetch]

end GitHub

end GemCourier.Remote
