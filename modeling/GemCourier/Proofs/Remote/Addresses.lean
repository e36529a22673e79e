/-
GemCourier/Proofs/Remote/Addresses.lean

What an address asks for.

An address is taken apart by its marks: the fragment begins at the first `#`, the
query at the first `?` in front of it, parameters are parted by `&`, and a percent
sign with two hexadecimal digits is one byte wherever it stands.  The addresses of
a repository are texts put together as they are, so a text in one is read back as
itself exactly if it holds no mark that means something at its place: `Literal`
says so of a text in a path, and `LiteralValue` of the value of a parameter.

The count of bytes decides: taking apart and decoding never make bytes, and every
mark that is met loses some.

Main results: `decoded_eq_bytes_iff`, `asks_place_iff`, `asks_value_iff`,
`GitHub.asks_iff_literal`.
-/
import Mathlib.Data.List.Basic
import GemCourier.Proofs.Path.Joining
import GemCourier.Remote.GitHub

namespace GemCourier.Remote

namespace Url

variable {text rest : List Char} {url : String}

/-! ### Bytes -/

/-- The bytes of a text. -/
def bytes (text : List Char) : List UInt8 :=
  text.flatMap String.utf8EncodeChar

@[simp] theorem bytes_nil : bytes [] = [] := rfl

@[simp] theorem bytes_cons (c : Char) (rest : List Char) :
    bytes (c :: rest) = String.utf8EncodeChar c ++ bytes rest := rfl

@[simp] theorem bytes_append (a b : List Char) : bytes (a ++ b) = bytes a ++ bytes b :=
  List.flatMap_append

theorem length_utf8EncodeChar_pos (c : Char) : 0 < (String.utf8EncodeChar c).length := by
  rw [String.length_utf8EncodeChar]
  exact c.utf8Size_pos

/-- A text is known by its bytes. -/
theorem bytes_injective {a b : List Char} (h : bytes a = bytes b) : a = b := by
  have hencoded : a.utf8Encode = b.utf8Encode := congrArg List.toByteArray h
  rw [← String.toByteArray_ofList, ← String.toByteArray_ofList, String.toByteArray_inj] at hencoded
  simpa using congrArg String.toList hencoded

/-- The byte that two hexadecimal digits spell. -/
def byte? (high low : Char) : Option UInt8 :=
  match Json.hexValue? high, Json.hexValue? low with
  | some h, some l => some (UInt8.ofNat (16 * h + l))
  | _, _ => none

/-- The bytes that a part of an address stands for. -/
def decoded : List Char → List UInt8
  | [] => []
  | '%' :: high :: low :: rest =>
    match byte? high low with
    | some b => b :: decoded rest
    | none => String.utf8EncodeChar '%' ++ decoded (high :: low :: rest)
  | c :: rest => String.utf8EncodeChar c ++ decoded rest

/-- Some percent sign of a text has two hexadecimal digits behind it. -/
def Escaped (text : List Char) : Prop :=
  ∃ front high low rest, text = front ++ '%' :: high :: low :: rest ∧ (byte? high low).isSome

theorem not_escaped_nil : ¬ Escaped [] := by
  rintro ⟨front, high, low, rest, h, -⟩
  simp at h

theorem escaped_cons {c : Char} :
    Escaped (c :: rest) ↔
      (c = '%' ∧ ∃ high low after, rest = high :: low :: after ∧ (byte? high low).isSome) ∨
        Escaped rest := by
  constructor
  · rintro ⟨front, high, low, after, h, hbyte⟩
    cases front with
    | nil =>
      obtain ⟨rfl, rfl⟩ := List.cons.inj h
      exact Or.inl ⟨rfl, high, low, after, rfl, hbyte⟩
    | cons d front =>
      obtain ⟨-, rfl⟩ := List.cons.inj h
      exact Or.inr ⟨front, high, low, after, rfl, hbyte⟩
  · rintro (⟨rfl, high, low, after, rfl, hbyte⟩ | ⟨front, high, low, after, rfl, hbyte⟩)
    · exact ⟨[], high, low, after, rfl, hbyte⟩
    · exact ⟨c :: front, high, low, after, rfl, hbyte⟩

theorem not_escaped_of_not_mem (h : '%' ∉ text) : ¬ Escaped text := by
  rintro ⟨front, high, low, rest, rfl, -⟩
  exact h (by simp)

theorem length_decoded_le (text : List Char) : (decoded text).length ≤ (bytes text).length := by
  fun_induction decoded text with
  | case1 => simp
  | case2 high low rest b hb ih =>
    have := length_utf8EncodeChar_pos '%'
    simp only [bytes_cons, List.length_append, List.length_cons]
    omega
  | case3 high low rest hb ih =>
    simpa using ih
  | case4 c rest hc ih =>
    simpa using ih

/-- An escape is three characters that stand for one byte. -/
theorem length_decoded_lt (h : Escaped text) : (decoded text).length < (bytes text).length := by
  fun_induction decoded text with
  | case1 => exact absurd h not_escaped_nil
  | case2 high low rest b hb ih =>
    have := length_utf8EncodeChar_pos '%'
    have := length_utf8EncodeChar_pos high
    have := length_decoded_le rest
    simp only [bytes_cons, List.length_append, List.length_cons]
    omega
  | case3 high low rest hb ih =>
    rcases escaped_cons.1 h with ⟨-, high', low', after, heq, hbyte⟩ | hrest
    · simp only [List.cons.injEq] at heq
      rw [← heq.1, ← heq.2.1, hb] at hbyte
      cases hbyte
    · simpa using ih hrest
  | case4 c rest hc ih =>
    rcases escaped_cons.1 h with ⟨rfl, high, low, after, heq, -⟩ | hrest
    · exact absurd heq (hc high low after rfl)
    · simpa using ih hrest

/-- A part of an address stands for its own bytes exactly if nothing in it is an escape. -/
theorem decoded_eq_bytes_iff : decoded text = bytes text ↔ ¬ Escaped text := by
  constructor
  · intro heq h
    have := length_decoded_lt h
    rw [heq] at this
    exact Nat.lt_irrefl _ this
  · intro h
    fun_induction decoded text with
    | case1 => rfl
    | case2 high low rest b hb ih =>
      exact absurd (escaped_cons.2 (Or.inl ⟨rfl, high, low, rest, rfl, by simp [hb]⟩)) h
    | case3 high low rest hb ih =>
      rw [bytes_cons, ih fun hrest => h (escaped_cons.2 (Or.inr hrest))]
    | case4 c rest hc ih =>
      rw [bytes_cons, ih fun hrest => h (escaped_cons.2 (Or.inr hrest))]

/-! ### Cutting at a mark -/

section Cutting

variable {mark : Char} {front : List Char}

theorem stops_iff : (∀ c ∈ text, decide (c = mark) = false) ↔ mark ∉ text := by
  simp only [decide_eq_false_iff_not]
  exact ⟨fun h hmem => h mark hmem rfl, fun h c hc hmark => h (hmark ▸ hc)⟩

theorem cutAt_of_not_mem (h : mark ∉ text) : cutAt (· = mark) text = (text, none) := by
  have hnone : text.dropWhile (fun c => !decide (c = mark)) = [] :=
    Text.dropWhile_eq_nil.2 fun c hc => by rw [stops_iff.2 h c hc, Bool.not_false]
  rw [cutAt, hnone]

/-- The place where a text is cut lies behind all that the mark is not in. -/
theorem cutAt_append (h : mark ∉ front) (text : List Char) :
    cutAt (· = mark) (front ++ text) =
      (front ++ (cutAt (· = mark) text).1, (cutAt (· = mark) text).2) := by
  have hkeep : ∀ c ∈ front, (!decide (c = mark)) = true := fun c hc => by
    rw [stops_iff.2 h c hc, Bool.not_false]
  rw [cutAt, cutAt, List.dropWhile_append_of_pos hkeep, List.takeWhile_append_of_pos hkeep]
  split <;> rfl

theorem cutAt_mark (h : mark ∉ front) (rest : List Char) :
    cutAt (· = mark) (front ++ mark :: rest) = (front, some rest) := by
  rw [cutAt_append h]
  simp [cutAt]

end Cutting

/-! ### Reading an address -/

/-- The parts of an address, if it names a host. -/
def parts? (url : String) : Option Parts :=
  let (front, fragment) := cutAt (· = '#') url.toList
  let (place, query) := cutAt (· = '?') front
  match Text.pieces '/' place with
  | _ :: [] :: host :: rest =>
    some ⟨String.ofList host, '/' :: Text.glue '/' rest, query, fragment⟩
  | _ => none

/-- A parameter: its name, and what stands behind the first equals sign. -/
def parameter (text : List Char) : List UInt8 × List UInt8 :=
  let (name, value) := cutAt (· = '=') text
  (decoded name, decoded (value.getD []))

/-- What a request for an address asks for.  The fragment is not sent with it. -/
structure Resource where
  host : String
  path : List UInt8
  parameters : List (List UInt8 × List UInt8)
deriving DecidableEq

/-- What the parts of an address ask for. -/
def Parts.resource (p : Parts) : Resource where
  host := p.host
  path := decoded p.path
  parameters := (p.query.map fun query => (Text.pieces '&' query).map parameter).getD []

/-- What an address asks for. -/
def resource? (url : String) : Option Resource :=
  (parts? url).map Parts.resource

/-- An address asks for a resource, and nothing of it is lost as a fragment. -/
def Asks (url : String) (r : Resource) : Prop :=
  ∃ p, parts? url = some p ∧ p.resource = r ∧ p.fragment = none

theorem resource?_of_asks {r : Resource} (h : Asks url r) : resource? url = some r := by
  obtain ⟨p, hp, rfl, -⟩ := h
  rw [resource?, hp, Option.map_some]

/-- A text that can be the host of an address. -/
structure IsHost (host : String) : Prop where
  no_slash : '/' ∉ host.toList
  no_hash : '#' ∉ host.toList
  no_query : '?' ∉ host.toList

/-- The address on a host whose path begins with a slash and then a text. -/
def onHost (host : String) (text : List Char) : String :=
  "https://" ++ host ++ "/" ++ String.ofList text

/-- Behind its host an address is cut at the first `#`, and in front of that at the first `?`. -/
theorem parts?_onHost {host : String} (h : IsHost host) (text : List Char) :
    parts? (onHost host text) =
      some ⟨host, '/' :: (cutAt (· = '?') (cutAt (· = '#') text).1).1,
        (cutAt (· = '?') (cutAt (· = '#') text).1).2, (cutAt (· = '#') text).2⟩ := by
  let start := "https:".toList ++ '/' :: ([] ++ '/' :: (host.toList ++ ['/']))
  have hurl : (onHost host text).toList = start ++ text := by
    simp [start, onHost]
  have hclear : ∀ mark : Char, mark ∉ "https:/".toList → mark ∉ host.toList → mark ∉ start := by
    intro mark hmark hhost
    simp_all [start]
  rw [parts?, hurl, cutAt_append (hclear '#' (by decide) h.no_hash)]
  dsimp only
  rw [cutAt_append (hclear '?' (by decide) h.no_query)]
  have hpieces : ∀ path, Text.pieces '/' (start ++ path) =
      "https:".toList :: [] :: host.toList :: Text.pieces '/' path := by
    intro path
    have hscheme : '/' ∉ "https:".toList := by decide
    simp only [start, List.append_assoc, List.cons_append, List.nil_append]
    rw [Text.pieces_append_sep, Text.pieces_of_not_mem hscheme, Text.pieces, if_pos rfl,
      Text.pieces_append_sep, Text.pieces_of_not_mem h.no_slash]
    rfl
  dsimp only
  rw [hpieces]
  simp [Text.glue_pieces]

/-! ### Literal texts -/

/-- A text that stands for itself in the path of an address. -/
structure Literal (text : List Char) : Prop where
  no_hash : '#' ∉ text
  no_query : '?' ∉ text
  not_escaped : ¬ Escaped text

/-- A text that stands for itself as the value of a parameter. -/
structure LiteralValue (text : List Char) : Prop where
  no_hash : '#' ∉ text
  no_ampersand : '&' ∉ text
  not_escaped : ¬ Escaped text

/-- No escape goes over a slash. -/
theorem escaped_append_slash {a b : List Char} :
    Escaped (a ++ '/' :: b) ↔ Escaped a ∨ Escaped b := by
  have hlow : ∀ low, byte? '/' low = none := fun low => by
    rw [byte?, show Json.hexValue? '/' = none by decide]
  have hhigh : ∀ high, byte? high '/' = none := fun high => by
    rw [byte?, show Json.hexValue? '/' = none by decide]
    cases Json.hexValue? high <;> rfl
  induction a with
  | nil =>
    rw [List.nil_append, escaped_cons]
    simp [not_escaped_nil]
  | cons c rest ih =>
    have hcons : Escaped (c :: rest) ∨ Escaped b ↔ (c = '%' ∧ ∃ high low after,
        rest = high :: low :: after ∧ (byte? high low).isSome) ∨ Escaped (rest ++ '/' :: b) := by
      rw [escaped_cons, or_assoc]
      exact or_congr_right ih.symm
    rw [List.cons_append, escaped_cons, hcons]
    match rest with
    | [] => simp [hlow]
    | [d] => simp [hhigh]
    | d :: e :: more => simp

theorem literal_append_slash {a b : List Char} :
    Literal (a ++ '/' :: b) ↔ Literal a ∧ Literal b := by
  constructor
  · rintro ⟨hhash, hquery, hescaped⟩
    simp only [List.mem_append, List.mem_cons, not_or] at hhash hquery
    rw [escaped_append_slash, not_or] at hescaped
    exact ⟨⟨hhash.1, hquery.1, hescaped.1⟩, ⟨hhash.2.2, hquery.2.2, hescaped.2⟩⟩
  · rintro ⟨ha, hb⟩
    refine ⟨?_, ?_, ?_⟩
    · simp [ha.no_hash, hb.no_hash]
    · simp [ha.no_query, hb.no_query]
    · rw [escaped_append_slash, not_or]
      exact ⟨ha.not_escaped, hb.not_escaped⟩

theorem escaped_slash : Escaped ('/' :: text) ↔ Escaped text := by
  simpa [not_escaped_nil] using escaped_append_slash (a := []) (b := text)

/-- A text in a path is read back as itself, with nothing behind it, exactly if it is literal. -/
theorem asks_place_iff {host : String} (hhost : IsHost host) (text : List Char) :
    Asks (onHost host text) ⟨host, bytes ('/' :: text), []⟩ ↔ Literal text := by
  rw [Asks, parts?_onHost hhost]
  constructor
  · rintro ⟨p, hp, hresource, hfragment⟩
    obtain rfl := Option.some.inj hp
    have hhash : '#' ∉ text := by
      intro hmem
      obtain ⟨front, behind, rfl, hfront⟩ := List.eq_append_cons_of_mem hmem
      simp [cutAt_mark hfront] at hfragment
    rw [cutAt_of_not_mem hhash] at hresource
    have hquery : '?' ∉ text := by
      intro hmem
      obtain ⟨front, behind, rfl, hfront⟩ := List.eq_append_cons_of_mem hmem
      have hparameters := congrArg Resource.parameters hresource
      simp [Parts.resource, cutAt_mark hfront, Text.pieces_ne_nil] at hparameters
    rw [cutAt_of_not_mem hquery] at hresource
    have hpath : decoded ('/' :: text) = bytes ('/' :: text) := congrArg Resource.path hresource
    exact ⟨hhash, hquery, mt escaped_slash.2 (decoded_eq_bytes_iff.1 hpath)⟩
  · intro h
    have hpath : decoded ('/' :: text) = bytes ('/' :: text) :=
      decoded_eq_bytes_iff.2 (mt escaped_slash.1 h.not_escaped)
    rw [cutAt_of_not_mem h.no_hash, cutAt_of_not_mem h.no_query]
    exact ⟨_, rfl, by rw [Parts.resource, hpath]; rfl, rfl⟩

theorem parameter_ref (value : List Char) :
    parameter ("ref=".toList ++ value) = (bytes "ref".toList, decoded value) := by
  have hname : '=' ∉ "ref".toList := by decide
  have hcut : cutAt (· = '=') ("ref=".toList ++ value) = ("ref".toList, some value) :=
    cutAt_mark hname value
  rw [parameter, hcut]
  rfl

/-- A query of one parameter is read back as that parameter exactly if its value is literal. -/
theorem parameters_ref_iff {value : List Char} (hhash : '#' ∉ value) :
    (Text.pieces '&' ("ref=".toList ++ value)).map parameter =
        [(bytes "ref".toList, bytes value)] ↔ LiteralValue value := by
  constructor
  · intro h
    have hampersand : '&' ∉ value := by
      intro hmem
      obtain ⟨front, behind, rfl, -⟩ := List.eq_append_cons_of_mem hmem
      have hlength := congrArg List.length h
      rw [← List.append_assoc, Text.pieces_append_sep] at hlength
      have := List.length_pos_of_ne_nil (Text.pieces_ne_nil '&' ("ref=".toList ++ front))
      have := List.length_pos_of_ne_nil (Text.pieces_ne_nil '&' behind)
      simp only [List.length_map, List.length_append, List.length_singleton] at hlength
      omega
    have hone : '&' ∉ "ref=".toList ++ value := by simp [hampersand]
    rw [Text.pieces_of_not_mem hone, List.map_singleton, parameter_ref] at h
    have hvalue : decoded value = bytes value := by simpa using h
    exact ⟨hhash, hampersand, decoded_eq_bytes_iff.1 hvalue⟩
  · intro h
    have hone : '&' ∉ "ref=".toList ++ value := by simp [h.no_ampersand]
    rw [Text.pieces_of_not_mem hone, List.map_singleton, parameter_ref,
      decoded_eq_bytes_iff.2 h.not_escaped]

/-- A text in a path and a value behind it are both read back as themselves exactly if they are
literal where they stand. -/
theorem asks_value_iff {host : String} (hhost : IsHost host) (place value : List Char) :
    Asks (onHost host (place ++ '?' :: ("ref=".toList ++ value)))
        ⟨host, bytes ('/' :: place), [(bytes "ref".toList, bytes value)]⟩ ↔
      Literal place ∧ LiteralValue value := by
  rw [Asks, parts?_onHost hhost]
  constructor
  · rintro ⟨p, hp, hresource, hfragment⟩
    obtain rfl := Option.some.inj hp
    have hhash : '#' ∉ place ++ '?' :: ("ref=".toList ++ value) := by
      intro hmem
      obtain ⟨front, behind, hcut, hfront⟩ := List.eq_append_cons_of_mem hmem
      rw [hcut, cutAt_mark hfront] at hfragment
      cases hfragment
    rw [cutAt_of_not_mem hhash] at hresource
    simp only [List.mem_append, List.mem_cons, not_or] at hhash
    have hquery : '?' ∉ place := by
      intro hmem
      obtain ⟨front, behind, rfl, hfront⟩ := List.eq_append_cons_of_mem hmem
      -- the path ends at the first question mark, which leaves too few bytes for the place
      have hpath := congrArg (List.length ∘ Resource.path) hresource
      have := length_decoded_le ('/' :: front)
      have := length_utf8EncodeChar_pos '?'
      simp only [List.append_assoc, List.cons_append, cutAt_mark hfront, Parts.resource,
        Function.comp_apply, bytes_cons, bytes_append, List.length_append] at *
      omega
    rw [cutAt_mark hquery] at hresource
    have hpath : decoded ('/' :: place) = bytes ('/' :: place) := congrArg Resource.path hresource
    have hvalue := congrArg Resource.parameters hresource
    exact ⟨⟨hhash.1, hquery, mt escaped_slash.2 (decoded_eq_bytes_iff.1 hpath)⟩,
      (parameters_ref_iff hhash.2.2.2).1 hvalue⟩
  · rintro ⟨hplace, hvalue⟩
    have hhash : '#' ∉ place ++ '?' :: ("ref=".toList ++ value) := by
      simp [hplace.no_hash, hvalue.no_hash]
    have hpath : decoded ('/' :: place) = bytes ('/' :: place) :=
      decoded_eq_bytes_iff.2 (mt escaped_slash.1 hplace.not_escaped)
    rw [cutAt_of_not_mem hhash, cutAt_mark hplace.no_query]
    refine ⟨_, rfl, ?_, rfl⟩
    rw [Parts.resource, hpath, Option.map_some, Option.getD_some,
      (parameters_ref_iff hvalue.no_hash).2 hvalue]

/-- What stands behind a `#` is not asked for. -/
theorem resource?_hash {host : String} (hhost : IsHost host) (front behind : List Char) :
    resource? (onHost host (front ++ '#' :: behind)) = resource? (onHost host front) := by
  rw [resource?, resource?, parts?_onHost hhost, parts?_onHost hhost]
  by_cases hfront : '#' ∈ front
  · obtain ⟨first, more, rfl, hfirst⟩ := List.eq_append_cons_of_mem hfront
    rw [List.append_assoc, List.cons_append, cutAt_mark hfirst, cutAt_mark hfirst]
    rfl
  · rw [cutAt_mark hfront, cutAt_of_not_mem hfront]
    rfl

end Url

/-! ### The addresses of a repository -/

namespace GitHub

open Url

/-- The host for listings and releases. -/
def apiHost : String := "api.github.com"

/-- The host of raw contents. -/
def rawHost : String := "raw.githubusercontent.com"

/-- The listing of a directory of the repository, at its reference. -/
def directoryOf (g : GitHub) (path : String) : Resource where
  host := apiHost
  path := bytes ("/repos/" ++ g.repository.owner ++ "/" ++ g.repository.name ++ "/contents/" ++
    trimSlashes path).toList
  parameters := [(bytes "ref".toList, bytes g.reference.toList)]

/-- The contents of a file of the repository, at its reference. -/
def fileOf (g : GitHub) (path : String) : Resource where
  host := rawHost
  path := bytes ("/" ++ g.repository.owner ++ "/" ++ g.repository.name ++ "/" ++ g.reference ++
    "/" ++ trimSlashes path).toList
  parameters := []

theorem isHost_apiHost : IsHost apiHost := by
  constructor <;> decide

theorem isHost_rawHost : IsHost rawHost := by
  constructor <;> decide

variable {g : GitHub} {path : String}

theorem contentsUrl_eq (g : GitHub) (path : String) :
    g.contentsUrl path = onHost apiHost
      ("repos".toList ++ '/' :: (g.repository.owner.toList ++ '/' :: (g.repository.name.toList ++
        '/' :: ("contents".toList ++ '/' :: (trimSlashes path).toList))) ++
          '?' :: ("ref=".toList ++ g.reference.toList)) := by
  apply String.toList_inj.1
  simp [contentsUrl, onHost, apiBase, apiHost, Repository.text]

theorem rawUrl_eq (g : GitHub) (path : String) :
    g.rawUrl path = onHost rawHost
      (g.repository.owner.toList ++ '/' :: (g.repository.name.toList ++
        '/' :: (g.reference.toList ++ '/' :: (trimSlashes path).toList))) := by
  apply String.toList_inj.1
  simp [rawUrl, onHost, rawBase, rawHost, Repository.text]

theorem literal_of_no_marks {text : List Char} (hhash : '#' ∉ text) (hquery : '?' ∉ text)
    (hpercent : '%' ∉ text) : Literal text :=
  ⟨hhash, hquery, not_escaped_of_not_mem hpercent⟩

/-- The address of a listing asks for that listing exactly if every text in it is literal at its
place. -/
theorem contentsUrl_asks_iff :
    Asks (g.contentsUrl path) (g.directoryOf path) ↔
      Literal g.repository.owner.toList ∧ Literal g.repository.name.toList ∧
        Literal (trimSlashes path).toList ∧ LiteralValue g.reference.toList := by
  have hrepos : Literal "repos".toList := literal_of_no_marks (by decide) (by decide) (by decide)
  have hcontents : Literal "contents".toList :=
    literal_of_no_marks (by decide) (by decide) (by decide)
  have hplace := asks_value_iff isHost_apiHost
    ("repos".toList ++ '/' :: (g.repository.owner.toList ++ '/' :: (g.repository.name.toList ++
      '/' :: ("contents".toList ++ '/' :: (trimSlashes path).toList)))) g.reference.toList
  rw [← contentsUrl_eq, literal_append_slash, literal_append_slash, literal_append_slash,
    literal_append_slash] at hplace
  have hdirectory : g.directoryOf path = ⟨apiHost, bytes ('/' :: ("repos".toList ++ '/' ::
      (g.repository.owner.toList ++ '/' :: (g.repository.name.toList ++ '/' ::
        ("contents".toList ++ '/' :: (trimSlashes path).toList))))),
      [(bytes "ref".toList, bytes g.reference.toList)]⟩ := by
    simp [directoryOf]
  rw [hdirectory, hplace]
  simp only [hrepos, hcontents, true_and, and_assoc]

/-- The address of a file asks for that file exactly if every text in it is literal. -/
theorem rawUrl_asks_iff :
    Asks (g.rawUrl path) (g.fileOf path) ↔
      Literal g.repository.owner.toList ∧ Literal g.repository.name.toList ∧
        Literal g.reference.toList ∧ Literal (trimSlashes path).toList := by
  have hplace := asks_place_iff isHost_rawHost (g.repository.owner.toList ++ '/' ::
    (g.repository.name.toList ++ '/' :: (g.reference.toList ++ '/' :: (trimSlashes path).toList)))
  rw [← rawUrl_eq, literal_append_slash, literal_append_slash, literal_append_slash] at hplace
  have hfile : g.fileOf path = ⟨rawHost, bytes ('/' :: (g.repository.owner.toList ++ '/' ::
      (g.repository.name.toList ++ '/' :: (g.reference.toList ++ '/' ::
        (trimSlashes path).toList)))), []⟩ := by
    simp [fileOf]
  rw [hfile, hplace]

theorem trimSlashes_of_directoryOf {other : String} (h : g.directoryOf path = g.directoryOf other) :
    trimSlashes path = trimSlashes other := by
  have hpath := bytes_injective (congrArg Resource.path h)
  exact String.toList_inj.1 (by simpa using hpath)

theorem trimSlashes_of_fileOf {other : String} (h : g.fileOf path = g.fileOf other) :
    trimSlashes path = trimSlashes other := by
  have hpath := bytes_injective (congrArg Resource.path h)
  exact String.toList_inj.1 (by simpa using hpath)

theorem contentsUrl_hash {front behind : String} (h : trimSlashes path = front ++ "#" ++ behind) :
    resource? (g.contentsUrl path) =
      resource? (apiBase ++ g.repository.text ++ "/contents/" ++ front) := by
  have hfront : apiBase ++ g.repository.text ++ "/contents/" ++ front = onHost apiHost
      ("repos/".toList ++ g.repository.text.toList ++ "/contents/".toList ++ front.toList) := by
    apply String.toList_inj.1
    simp [onHost, apiBase, apiHost]
  have hurl : g.contentsUrl path = onHost apiHost
      (("repos/".toList ++ g.repository.text.toList ++ "/contents/".toList ++ front.toList) ++
        '#' :: (behind.toList ++ '?' :: ("ref=".toList ++ g.reference.toList))) := by
    apply String.toList_inj.1
    simp [contentsUrl, h, onHost, apiBase, apiHost]
  rw [hurl, hfront, resource?_hash isHost_apiHost]

theorem rawUrl_hash {front behind : String} (h : trimSlashes path = front ++ "#" ++ behind) :
    resource? (g.rawUrl path) =
      resource? (rawBase ++ g.repository.text ++ "/" ++ g.reference ++ "/" ++ front) := by
  have hfront : rawBase ++ g.repository.text ++ "/" ++ g.reference ++ "/" ++ front =
      onHost rawHost
        (g.repository.text.toList ++ '/' :: (g.reference.toList ++ '/' :: front.toList)) := by
    apply String.toList_inj.1
    simp [onHost, rawBase, rawHost]
  have hurl : g.rawUrl path = onHost rawHost
      ((g.repository.text.toList ++ '/' :: (g.reference.toList ++ '/' :: front.toList)) ++
        '#' :: behind.toList) := by
    apply String.toList_inj.1
    simp [rawUrl, h, onHost, rawBase, rawHost]
  rw [hurl, hfront, resource?_hash isHost_rawHost]

/-- The address of a listing asks for the directory that was meant, at the reference, and the
address of a file for the file, exactly if owner, name and path are literal and so is the
reference at its place.  Two paths that are asked for rightly are not confused.  Otherwise what
stands behind a `#` is lost: a listing is then asked for without its reference, whatever that is,
and one address stands for all files that go on differently behind the `#`. -/
theorem asks_iff_literal (g : GitHub) :
    (∀ path, Asks (g.contentsUrl path) (g.directoryOf path) ↔
      Literal g.repository.owner.toList ∧ Literal g.repository.name.toList ∧
        Literal (trimSlashes path).toList ∧ LiteralValue g.reference.toList) ∧
    (∀ path, Asks (g.rawUrl path) (g.fileOf path) ↔
      Literal g.repository.owner.toList ∧ Literal g.repository.name.toList ∧
        Literal g.reference.toList ∧ Literal (trimSlashes path).toList) ∧
    (∀ path other, Asks (g.contentsUrl path) (g.directoryOf path) →
      Asks (g.contentsUrl other) (g.directoryOf other) →
      resource? (g.contentsUrl path) = resource? (g.contentsUrl other) →
      trimSlashes path = trimSlashes other) ∧
    (∀ path other, Asks (g.rawUrl path) (g.fileOf path) →
      Asks (g.rawUrl other) (g.fileOf other) →
      resource? (g.rawUrl path) = resource? (g.rawUrl other) →
      trimSlashes path = trimSlashes other) ∧
    ∀ path front behind, trimSlashes path = front ++ "#" ++ behind →
      resource? (g.contentsUrl path) =
          resource? (apiBase ++ g.repository.text ++ "/contents/" ++ front) ∧
        resource? (g.rawUrl path) =
          resource? (rawBase ++ g.repository.text ++ "/" ++ g.reference ++ "/" ++ front) := by
  refine ⟨fun path => contentsUrl_asks_iff, fun path => rawUrl_asks_iff, ?_, ?_,
    fun path front behind h => ⟨contentsUrl_hash h, rawUrl_hash h⟩⟩
  · intro path other hpath hother hsame
    rw [resource?_of_asks hpath, resource?_of_asks hother] at hsame
    exact trimSlashes_of_directoryOf (Option.some.inj hsame)
  · intro path other hpath hother hsame
    rw [resource?_of_asks hpath, resource?_of_asks hother] at hsame
    exact trimSlashes_of_fileOf (Option.some.inj hsame)

/-- A repository that `Repository.parse` accepts, read at a branch. -/
def smallRepository : GitHub := ⟨⟨"o", "n"⟩, "main", none⟩

theorem asks_iff_literal_smallRepository :
    Repository.parse "o/n" = .ok smallRepository.repository ∧ smallRepository.reference ≠ "" ∧
    Asks (smallRepository.contentsUrl "a.rb") (smallRepository.directoryOf "a.rb") ∧
    Asks (smallRepository.rawUrl "a.rb") (smallRepository.fileOf "a.rb") ∧
    ¬ Asks (smallRepository.contentsUrl "a#b") (smallRepository.directoryOf "a#b") ∧
    ¬ Asks (smallRepository.rawUrl "a%62") (smallRepository.fileOf "a%62") ∧
    resource? (smallRepository.rawUrl "a#b") = resource? (smallRepository.rawUrl "a#c") := by
  obtain ⟨hcontents, hraw, -, -, hhash⟩ := asks_iff_literal smallRepository
  have htrim : ∀ path ∈ ["a.rb", "a#b", "a#c", "a%62"], trimSlashes path = path := by decide
  have howner : Literal "o".toList := literal_of_no_marks (by decide) (by decide) (by decide)
  have hname : Literal "n".toList := literal_of_no_marks (by decide) (by decide) (by decide)
  have hreference : Literal "main".toList :=
    literal_of_no_marks (by decide) (by decide) (by decide)
  have hfile : Literal (trimSlashes "a.rb").toList :=
    literal_of_no_marks (by decide) (by decide) (by decide)
  refine ⟨by decide, by decide, (hcontents _).2 ⟨howner, hname, hfile, ?_⟩,
    (hraw _).2 ⟨howner, hname, hreference, hfile⟩, fun h => ?_, fun h => ?_, ?_⟩
  · exact ⟨by decide, by decide, not_escaped_of_not_mem (by decide)⟩
  · exact ((hcontents _).1 h).2.2.1.no_hash (by decide)
  · refine ((hraw _).1 h).2.2.2.not_escaped ⟨['a'], '6', '2', [], by decide, by decide⟩
  · rw [(hhash "a#b" "a" "b" (htrim _ (by simp))).2, (hhash "a#c" "a" "c" (htrim _ (by simp))).2]

end GitHub

end GemCourier.Remote
