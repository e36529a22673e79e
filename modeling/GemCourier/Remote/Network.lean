/-
GemCourier/Remote/Network.lean

The network as a table of answers.

A network knows what finitely many addresses answer, and every other address
gives one and the same answer, which is no success.  A request whose
authorization cannot stand in a header is never sent.
-/
import GemCourier.Remote.Tree
import GemCourier.Remote.Url
import GemCourier.Text.Blank

namespace GemCourier.Remote

/-- What comes back for an address. -/
inductive Answer where
  /-- A status and a body. -/
  | answered (status : Nat) (body : ByteArray)
  /-- The host of the address was not found, for a reason. -/
  | broken (reason : String)

namespace Answer

/-- Whether the answer is a success. -/
def isSuccess : Answer → Bool
  | answered status _ => status == 200
  | broken _ => false

end Answer

/-- The answers of addresses, and the answer of all others. -/
structure Network where
  answers : List (String × Answer)
  otherwise : Answer
  /-- An address that is not known gives no success. -/
  otherwise_fails : otherwise.isSuccess = false

namespace Network

/-- A network on which every address that is not in the table is not found. -/
def ofAnswers (answers : List (String × Answer)) : Network :=
  ⟨answers, .answered 404 ByteArray.empty, rfl⟩

/-- The network without any connection. -/
def offline : Network :=
  ⟨[], .broken "the network is not available", rfl⟩

/-- What an address answers. -/
def answer (network : Network) (url : String) : Answer :=
  (network.answers.lookup url).getD network.otherwise

/-- The length of the longest address in the table. -/
def reach (network : Network) : Nat :=
  (network.answers.map fun e => e.1.length).foldl max 0

/-- An address that succeeds is in the table and so no longer than the reach. -/
theorem length_le_reach {network : Network} {url : String}
    (h : (network.answer url).isSuccess = true) : url.length ≤ network.reach := by
  refine Classical.byContradiction fun hlong => ?_
  have hnone : network.answers.lookup url = none :=
    StoredTree.lookup_eq_none_of_not_mem fun e he heq => by
      have : e.1.length ≤ network.reach :=
        StoredTree.le_foldl_max (Or.inr (List.mem_map.2 ⟨e, he, rfl⟩))
      rw [heq] at this
      omega
  rw [answer, hnone, Option.getD_none, network.otherwise_fails] at h
  exact absurd h (by simp)

end Network

/-- Whether a character can stand in the value of a header. -/
def canBeSent (c : Char) : Bool :=
  c == '\t' || (' ' ≤ c && c ≤ '~')

/-- The first header of a request that cannot be sent. -/
def badHeader? (r : Request) : Option String :=
  match r.authorization with
  | some value => if value.toList.all canBeSent then none else some s!"Authorization: {value}"
  | none => none

/-- The host of an address. -/
def hostOf (url : String) : String :=
  match Text.split '/' url with
  | _ :: _ :: host :: _ => host
  | _ => ""

/-- The sending of a request, whose header values are read without blanks around them. -/
def sent (r : Request) : Incident :=
  .requested { r with authorization := r.authorization.map Text.stripped }

/-- What sending a request comes to: the body of a success. -/
def Network.send (network : Network) (r : Request) : Reply ByteArray :=
  let announced := Incident.noted .debug s!"Requesting {r.url}"
  match badHeader? r with
  | some header =>
    ⟨.error (.transport r.url s!"Bad Header: invalid header '{header}'"), [announced]⟩
  | none =>
    match network.answer r.url with
    | .answered status body =>
      if status = 200 then
        ⟨.ok body, [announced, sent r, .noted .debug s!"Response status: {status}"]⟩
      else ⟨.error (.status r.url status), [announced, sent r]⟩
    | .broken reason =>
      ⟨.error (.transport r.url
        s!"{Url.shown r.url}: Dns Failed: resolve dns name '{hostOf r.url}:443': {reason}"),
        [announced, sent r]⟩

/-- What is sent with success lies within the reach. -/
theorem Network.length_le_reach_of_send {network : Network} {r : Request} {body : ByteArray}
    (h : (network.send r).outcome = .ok body) : r.url.length ≤ network.reach := by
  apply length_le_reach
  rw [send] at h
  split at h
  · simp at h
  · split at h
    · next status body' hanswer =>
      split at h
      · next hstatus => simp [hanswer, Answer.isSuccess, hstatus]
      · simp at h
    · simp at h

end GemCourier.Remote
