/-
GemCourier/Proofs/CommandLine/Lines.lean

What the words of a command line give.

`Grammar.Line` says which lines of words there are on a level, and which text each of
them gives to which flag or argument: a long flag stands by itself, letters can stand
together, a text stands behind an equals sign, behind its letter or in the next word,
and behind `--` there are arguments alone.  The relation knows no progress and no
error.

The reading of a level settles a text only when something else turns up, so the
values it has lag behind the words it has seen.  `Progress.Has` counts what is pending
in, and then each word adds exactly what the line gives with it (`readWord_cases`).
From there the reading of a whole level is the reading of a line (`line_of_read`), and
nothing a line gives is lost or made up on the way to the command
(`Invocation.exists_line`).

Main results: `Grammar.line_of_read`, `Grammar.Line.unique`, `Invocation.exists_line`.
-/
import Mathlib.Data.List.Forall2
import Mathlib.Data.List.TakeWhile
import GemCourier.CommandLine.Invocation

namespace GemCourier

/-- What is held is what is read from a source, if there is one. -/
inductive Holds {α β : Type} (read : β → Option α) : Option β → Option α → Prop
  | unset : Holds read none none
  | set {source : β} {a : α} : read source = some a → Holds read (some source) (some a)

namespace CommandLine

/-! ### Lines -/

/-- A word that is no flag: it is `-` at most, or starts with another character. -/
def Plain (word : String) : Prop :=
  ∀ c text, word.toList ≠ '-' :: c :: text

namespace Grammar

variable {g : Grammar}

/-- Letters that stand together give these texts to these flags, and the last of them may leave
a flag to the next word. -/
inductive Letters (g : Grammar) : List Char → List (Flag × String) → Option Flag → Prop
  | nil : g.Letters [] [] none
  | waits {letter : Char} {flag : Flag} :
      g.flags.find? (·.letter = some letter) = some flag → flag.kind.takesValue = true →
      g.Letters [letter] [] (some flag)
  | equals {letter : Char} {flag : Flag} {value : List Char} :
      g.flags.find? (·.letter = some letter) = some flag → flag.kind.takesValue = true →
      g.Letters (letter :: '=' :: value) [(flag, String.ofList value)] none
  | attached {letter : Char} {flag : Flag} {value : List Char} :
      g.flags.find? (·.letter = some letter) = some flag → flag.kind.takesValue = true →
      value ≠ [] → value.head? ≠ some '=' →
      g.Letters (letter :: value) [(flag, String.ofList value)] none
  | switch {letter : Char} {flag : Flag} {letters : List Char} {given : List (Flag × String)}
      {next? : Option Flag} :
      g.flags.find? (·.letter = some letter) = some flag → flag.kind.takesValue = false →
      g.Letters letters given next? → g.Letters (letter :: letters) ((flag, "") :: given) next?

/-- A word of flags gives these texts to these flags, and may leave a flag to the next word. -/
inductive Word (g : Grammar) : List Char → List (Flag × String) → Option Flag → Prop
  | long {name : List Char} {flag : Flag} :
      name ≠ [] → '=' ∉ name → g.flags.find? (·.name = String.ofList name) = some flag →
      flag.kind.takesValue = true → g.Word ('-' :: '-' :: name) [] (some flag)
  | longSwitch {name : List Char} {flag : Flag} :
      name ≠ [] → '=' ∉ name → g.flags.find? (·.name = String.ofList name) = some flag →
      flag.kind.takesValue = false → g.Word ('-' :: '-' :: name) [(flag, "")] none
  | longWith {name value : List Char} {flag : Flag} :
      '=' ∉ name → g.flags.find? (·.name = String.ofList name) = some flag →
      flag.kind.takesValue = true →
      g.Word ('-' :: '-' :: (name ++ '=' :: value)) [(flag, String.ofList value)] none
  | letters {letter : Char} {letters : List Char} {given : List (Flag × String)}
      {next? : Option Flag} :
      letter ≠ '-' → g.Letters (letter :: letters) given next? →
      g.Word ('-' :: letter :: letters) given next?

/-- A line of words, with so many arguments in front of it and a flag that may wait for the first
word, gives these texts to these flags and arguments. -/
inductive Line (g : Grammar) :
    Nat → Option Flag → List String → List (Flag × String) → Prop
  | nil {taken : Nat} : g.Line taken none [] []
  | next {taken : Nat} {flag : Flag} {word : String} {words : List String}
      {given : List (Flag × String)} :
      Plain word → g.Line taken none words given →
      g.Line taken (some flag) (word :: words) ((flag, word) :: given)
  | flags {taken : Nat} {word : String} {words : List String} {given more : List (Flag × String)}
      {next? : Option Flag} :
      g.Word word.toList given next? → g.Line taken next? words more →
      g.Line taken none (word :: words) (given ++ more)
  | argument {taken : Nat} {argument : Flag} {word : String} {words : List String}
      {given : List (Flag × String)} :
      Plain word → g.arguments[taken]? = some argument → g.Line (taken + 1) none words given →
      g.Line taken none (word :: words) ((argument, word) :: given)
  | arguments {taken : Nat} {words : List String} :
      words.length ≤ (g.arguments.drop taken).length →
      g.Line taken none ("--" :: words) ((g.arguments.drop taken).zip words)

end Grammar

/-! ### What the reading has been given -/

/-- The value is read from the text, and stands under the name of the flag. -/
def Matches (given : Flag × String) (value : String × Value) : Prop :=
  value.1 = given.1.name ∧ given.1.kind.read given.2 = .ok value.2

/-- The values are read from the texts one by one, and no two have one name. -/
structure Settles (given : List (Flag × String)) (values : Values) : Prop where
  values_match : List.Forall₂ Matches given values
  names_distinct : (values.map Prod.fst).Nodup

theorem settles_nil : Settles [] [] :=
  ⟨.nil, List.nodup_nil⟩

/-- No flag and no argument is given two texts. -/
theorem Settles.distinct {given : List (Flag × String)} {values : Values}
    (h : Settles given values) : (given.map (·.1.name)).Nodup := by
  have hnames : given.map (·.1.name) = values.map Prod.fst := by
    have hmatches := h.values_match
    clear h
    induction hmatches with
    | nil => rfl
    | cons hmatches _ ih => rw [List.map_cons, List.map_cons, ih, hmatches.1]
  rw [hnames]
  exact h.names_distinct

namespace Progress

/-- The reading has been given these texts, whether their values are taken or the last text is
pending, and a flag may wait for the next word. -/
inductive Has : Progress → List (Flag × String) → Option Flag → Prop
  | settled {values : Values} {given : List (Flag × String)} {taken : Nat} {ended : Bool} :
      Settles given values → Has ⟨values, none, false, taken, ended⟩ given none
  | supplied {values : Values} {given : List (Flag × String)} {taken : Nat} {ended : Bool}
      {flag : Flag} {raw : String} :
      Settles given values →
      Has ⟨values, some (flag, [raw]), false, taken, ended⟩ (given ++ [(flag, raw)]) none
  | waits {values : Values} {given : List (Flag × String)} {taken : Nat} {ended : Bool}
      {flag : Flag} :
      flag.kind.takesValue = true → Settles given values →
      Has ⟨values, some (flag, []), true, taken, ended⟩ given (some flag)

/-- The same number of arguments has been taken, and the same words can follow. -/
structure Beside (p q : Progress) : Prop where
  taken : q.taken = p.taken
  ended : q.argumentsOnly = p.argumentsOnly

variable {p q : Progress} {given : List (Flag × String)} {next? : Option Flag} {flag : Flag}
  {words : List String} {word : String}

/-- Behind a taking everything is settled. -/
theorem has_take {values : Values} {waiting ended : Bool} {taken : Nat}
    (hsettles : Settles given values)
    (h : (Progress.mk values none waiting taken ended).take flag words = .ok q) :
    (flag.kind.takesValue = true → words ≠ []) ∧
      ∃ more, Settles (given ++ [(flag, words.headD "")]) more ∧
        q = ⟨more, none, false, taken, ended⟩ := by
  rw [take] at h
  split at h
  · cases h
  · next hmissing =>
    split at h
    · cases h
    · next hconflict =>
      cases hread : flag.kind.read (words.headD "") with
      | error e => rw [hread] at h; cases h
      | ok v =>
        rw [hread] at h
        cases h
        refine ⟨fun htakes hnil => hmissing ⟨htakes, hnil⟩, _, ⟨?_, ?_⟩, rfl⟩
        · exact List.rel_append hsettles.values_match (.cons ⟨rfl, hread⟩ .nil)
        · -- a name that has a value already is refused
          have hnew : flag.name ∉ values.map Prod.fst := by
            intro hmem
            obtain ⟨value, hvalue, hname⟩ := List.mem_map.1 hmem
            rw [Option.not_isSome_iff_eq_none, List.lookup_eq_none_iff] at hconflict
            simpa [hname] using hconflict value hvalue
          rw [List.map_append, List.nodup_append]
          refine ⟨hsettles.names_distinct, by simp, fun name hname other hother => ?_⟩
          rw [List.mem_singleton.1 hother]
          exact ne_of_mem_of_not_mem hname hnew

/-- Only what waits for no word can be settled. -/
theorem Has.settle (hp : p.Has given next?) (h : p.settle = .ok q) :
    next? = none ∧ ∃ values, Settles given values ∧
      q = ⟨values, none, false, p.taken, p.argumentsOnly⟩ := by
  cases hp with
  | settled hsettles =>
    cases h
    exact ⟨rfl, _, hsettles, rfl⟩
  | supplied hsettles =>
    obtain ⟨-, more, hmore, rfl⟩ := has_take hsettles h
    exact ⟨rfl, more, hmore, rfl⟩
  | waits htakes hsettles =>
    obtain ⟨hwords, -⟩ := has_take hsettles h
    exact absurd rfl (hwords htakes)

theorem Has.settleAndTake (hp : p.Has given next?) (h : p.settleAndTake flag words = .ok q) :
    next? = none ∧ q.Has (given ++ [(flag, words.headD "")]) none ∧ p.Beside q := by
  rw [Progress.settleAndTake] at h
  cases hsettle : p.settle with
  | error e => rw [hsettle] at h; cases h
  | ok settled =>
    rw [hsettle] at h
    obtain ⟨hnone, values, hsettles, rfl⟩ := hp.settle hsettle
    obtain ⟨-, more, hmore, rfl⟩ := has_take hsettles h
    exact ⟨hnone, .settled hmore, rfl, rfl⟩

theorem Has.await (hp : p.Has given next?) (htakes : flag.kind.takesValue = true)
    (h : p.await flag = .ok q) : next? = none ∧ q.Has given (some flag) ∧ p.Beside q := by
  rw [Progress.await] at h
  cases hsettle : p.settle with
  | error e => rw [hsettle] at h; cases h
  | ok settled =>
    rw [hsettle] at h
    obtain ⟨hnone, values, hsettles, rfl⟩ := hp.settle hsettle
    cases h
    exact ⟨hnone, .waits htakes hsettles, rfl, rfl⟩

theorem Has.argument (hp : p.Has given next?) (h : p.argument flag word = .ok q) :
    next? = none ∧ q.Has (given ++ [(flag, word)]) none ∧ q.taken = p.taken + 1 ∧
      q.argumentsOnly = p.argumentsOnly := by
  rw [Progress.argument] at h
  cases hsettle : p.settle with
  | error e => rw [hsettle] at h; cases h
  | ok settled =>
    rw [hsettle] at h
    obtain ⟨hnone, values, hsettles, rfl⟩ := hp.settle hsettle
    cases h
    exact ⟨hnone, .supplied hsettles, rfl, rfl⟩

theorem Has.supply (hp : p.Has given (some flag)) :
    (p.supply word).Has (given ++ [(flag, word)]) none ∧ p.Beside (p.supply word) := by
  cases hp with
  | waits htakes hsettles => exact ⟨.supplied hsettles, rfl, rfl⟩

/-- A word is waited for just if there is a flag that waits for one. -/
theorem Has.awaiting_eq (hp : p.Has given next?) : p.awaiting = next?.isSome := by
  cases hp <;> rfl

end Progress

/-! ### The reading of a word -/

namespace Grammar

variable {g : Grammar} {p q : Progress} {given : List (Flag × String)} {next? : Option Flag}
  {word : String}

/-- A text is what stands in front of its first equals sign, and what stands behind it. -/
theorem cutAtEquals_cases (text : List Char) :
    ('=' ∉ text ∧ cutAtEquals text = (String.ofList text, none)) ∨
      ∃ name value, '=' ∉ name ∧ text = name ++ '=' :: value ∧
        cutAtEquals text = (String.ofList name, some (String.ofList value)) := by
  have hfront : '=' ∉ text.takeWhile (· ≠ '=') := fun hmem => by
    simpa using List.mem_takeWhile_imp hmem
  have hglued := List.takeWhile_append_dropWhile (p := (· ≠ '=')) (l := text)
  rw [cutAtEquals]
  cases hback : text.dropWhile (· ≠ '=') with
  | nil =>
    rw [hback, List.append_nil] at hglued
    rw [hglued] at hfront
    exact Or.inl ⟨hfront, rfl⟩
  | cons c value =>
    have hc : c = '=' := by
      have hhead := List.head?_dropWhile_not (· ≠ '=') text
      rw [hback] at hhead
      simpa using hhead
    rw [hback, hc] at hglued
    exact Or.inr ⟨_, value, hfront, hglued.symm, rfl⟩

theorem has_readLong {text : List Char} (hp : p.Has given next?) (htext : text ≠ [])
    (h : g.readLong p text = .ok q) :
    next? = none ∧ ∃ more next', g.Word ('-' :: '-' :: text) more next' ∧
      q.Has (given ++ more) next' ∧ p.Beside q := by
  rw [readLong] at h
  rcases cutAtEquals_cases text with ⟨hplain, hcut⟩ | ⟨name, value, hplain, rfl, hcut⟩
  · rw [hcut] at h
    dsimp only at h
    split at h
    · cases h
    · next flag hfind =>
      cases htakes : flag.kind.takesValue with
      | true =>
        rw [if_pos htakes] at h
        obtain ⟨hnone, hq, hbeside⟩ := hp.await htakes h
        refine ⟨hnone, [], some flag, .long htext hplain hfind htakes, ?_, hbeside⟩
        rwa [List.append_nil]
      | false =>
        rw [if_neg (by simp [htakes])] at h
        obtain ⟨hnone, hq, hbeside⟩ := hp.settleAndTake h
        exact ⟨hnone, _, none, .longSwitch htext hplain hfind htakes, hq, hbeside⟩
  · rw [hcut] at h
    dsimp only at h
    split at h
    · cases h
    · next flag hfind =>
      split at h
      · next htakes =>
        obtain ⟨hnone, hq, hbeside⟩ := hp.settleAndTake h
        exact ⟨hnone, _, none, .longWith hplain hfind htakes, hq, hbeside⟩
      · cases h

theorem has_readLetters {letters : List Char} (hp : p.Has given next?)
    (hletters : letters = [] → next? = none) (h : g.readLetters p letters = .ok q) :
    next? = none ∧ ∃ more next', g.Letters letters more next' ∧ q.Has (given ++ more) next' ∧
      p.Beside q := by
  induction letters generalizing p given next? with
  | nil =>
    cases h
    obtain rfl := hletters rfl
    refine ⟨rfl, [], none, .nil, ?_, rfl, rfl⟩
    rwa [List.append_nil]
  | cons letter rest ih =>
    rw [readLetters] at h
    split at h
    · cases h
    · next flag hfind =>
      cases htakes : flag.kind.takesValue with
      | true =>
        rw [if_pos htakes] at h
        split at h
        · obtain ⟨hnone, hq, hbeside⟩ := hp.await htakes h
          refine ⟨hnone, [], some flag, .waits hfind htakes, ?_, hbeside⟩
          rwa [List.append_nil]
        · obtain ⟨hnone, hq, hbeside⟩ := hp.settleAndTake h
          exact ⟨hnone, _, none, .equals hfind htakes, hq, hbeside⟩
        · next hnonempty hequals =>
          obtain ⟨hnone, hq, hbeside⟩ := hp.settleAndTake h
          refine ⟨hnone, _, none, .attached hfind htakes hnonempty fun hhead => ?_, hq, hbeside⟩
          obtain ⟨value, hvalue⟩ := List.head?_eq_some_iff.1 hhead
          exact hequals value hvalue
      | false =>
        rw [if_neg (by simp [htakes])] at h
        cases htaken : p.settleAndTake flag [] with
        | error e => rw [htaken] at h; cases h
        | ok taken =>
          rw [htaken] at h
          obtain ⟨hnone, hq, hbeside⟩ := hp.settleAndTake htaken
          obtain ⟨-, more, next', hword, hmore, hrest⟩ := ih hq (fun _ => rfl) h
          refine ⟨hnone, _, next', .switch hfind htakes hword, ?_,
            hrest.taken.trans hbeside.taken, hrest.ended.trans hbeside.ended⟩
          rwa [List.append_assoc] at hmore

theorem has_readArgument (hp : p.Has given next?) (h : g.readArgument p word = .ok q) :
    next? = none ∧ ∃ argument, g.arguments[p.taken]? = some argument ∧
      q.Has (given ++ [(argument, word)]) none ∧ q.taken = p.taken + 1 ∧
      q.argumentsOnly = p.argumentsOnly := by
  rw [readArgument] at h
  split at h
  · next argument hargument =>
    obtain ⟨hnone, hq⟩ := hp.argument h
    exact ⟨hnone, argument, hargument, hq⟩
  · split at h <;> cases h

/-- What reading a word does, in front of any `--`: it ends the flags, supplies the flag that
waits, gives flags their texts, or is the next argument. -/
theorem readWord_cases (hp : p.Has given next?) (hended : p.argumentsOnly = false)
    (h : g.readWord p word = .ok q) :
    (word = "--" ∧ q = { p with argumentsOnly := true }) ∨
      (∃ flag, next? = some flag ∧ Plain word ∧ q.Has (given ++ [(flag, word)]) none ∧
        p.Beside q) ∨
      (next? = none ∧ ∃ more next', g.Word word.toList more next' ∧
        q.Has (given ++ more) next' ∧ p.Beside q) ∨
      (next? = none ∧ Plain word ∧ ∃ argument, g.arguments[p.taken]? = some argument ∧
        q.Has (given ++ [(argument, word)]) none ∧ q.taken = p.taken + 1 ∧
        q.argumentsOnly = p.argumentsOnly) := by
  rw [readWord, if_neg (by simp [hended])] at h
  split at h
  · next hlist =>
    cases h
    exact Or.inl ⟨String.toList_inj.1 hlist, rfl⟩
  · next text hnonempty hlist =>
    obtain ⟨hnone, more, next', hword, hq⟩ := has_readLong hp (by simpa using hnonempty) h
    rw [← hlist] at hword
    exact Or.inr (Or.inr (Or.inl ⟨hnone, more, next', hword, hq⟩))
  · next letter letters hdash hlist =>
    obtain ⟨hnone, more, next', hword, hq⟩ := has_readLetters hp (by simp) h
    refine Or.inr (Or.inr (Or.inl ⟨hnone, more, next', ?_, hq⟩))
    rw [hlist]
    exact .letters hdash hword
  · next hlist =>
    have hplain : Plain word := fun c text hword => hlist c text hword
    rw [hp.awaiting_eq] at h
    cases next? with
    | some flag =>
      cases h
      exact Or.inr (Or.inl ⟨flag, rfl, hplain, hp.supply⟩)
    | none =>
      obtain ⟨-, argument, hargument, hq⟩ := has_readArgument hp h
      exact Or.inr (Or.inr (Or.inr ⟨rfl, hplain, argument, hargument, hq⟩))

/-! ### The reading of a level -/

/-- The words left behind a level, the name of a command first. -/
def behind : Option (String × List String) → List String
  | none => []
  | some (name, rest) => name :: rest

variable {settled : Progress} {words : List String} {left : Option (String × List String)}

/-- Behind `--` each word is the next argument. -/
theorem arguments_of_read (hp : p.Has given next?) (hended : p.argumentsOnly = true)
    (h : g.read p words = .ok (q, left)) (hsettle : q.settle = .ok settled) :
    next? = none ∧ left = none ∧ words.length ≤ (g.arguments.drop p.taken).length ∧
      Settles (given ++ (g.arguments.drop p.taken).zip words) settled.values := by
  induction words generalizing p given next? with
  | nil =>
    cases h
    obtain ⟨hnone, values, hsettles, rfl⟩ := hp.settle hsettle
    refine ⟨hnone, rfl, Nat.zero_le _, ?_⟩
    rwa [List.zip_nil_right, List.append_nil]
  | cons word rest ih =>
    rw [read, if_neg (by simp [hended])] at h
    cases hnext : g.readWord p word with
    | error e => rw [hnext] at h; cases h
    | ok next =>
      rw [hnext] at h
      rw [readWord, if_pos hended] at hnext
      obtain ⟨hnone, argument, hargument, hhas, htaken, hstill⟩ := has_readArgument hp hnext
      obtain ⟨-, hleft, hlength, hsettles⟩ := ih hhas (hstill.trans hended) h
      obtain ⟨hlt, hget⟩ := List.getElem?_eq_some_iff.1 hargument
      rw [htaken] at hlength hsettles
      rw [List.drop_eq_getElem_cons hlt, hget]
      refine ⟨hnone, hleft, Nat.succ_le_succ hlength, ?_⟩
      rwa [List.append_assoc] at hsettles

/-- A level that is read is a line up to the name of a command, and its values are those of the
texts that the line gives. -/
theorem line_of_read (hp : p.Has given next?) (hended : p.argumentsOnly = false)
    (h : g.read p words = .ok (q, left)) (hsettle : q.settle = .ok settled) :
    ∃ front more, words = front ++ behind left ∧ g.Line p.taken next? front more ∧
      Settles (given ++ more) settled.values := by
  induction words generalizing p given next? with
  | nil =>
    cases h
    obtain ⟨rfl, values, hsettles, rfl⟩ := hp.settle hsettle
    refine ⟨[], [], rfl, .nil, ?_⟩
    rwa [List.append_nil]
  | cons word rest ih =>
    rw [read] at h
    split at h
    · -- the name of a command ends the line
      cases h
      obtain ⟨rfl, values, hsettles, rfl⟩ := hp.settle hsettle
      refine ⟨[], [], rfl, .nil, ?_⟩
      rwa [List.append_nil]
    · cases hnext : g.readWord p word with
      | error e => rw [hnext] at h; cases h
      | ok next =>
        rw [hnext] at h
        rcases readWord_cases hp hended hnext with ⟨rfl, rfl⟩ |
          ⟨flag, rfl, hplain, hhas, hbeside⟩ | ⟨rfl, own, next', hword, hhas, hbeside⟩ |
          ⟨rfl, hplain, argument, hargument, hhas, htaken, hstill⟩
        · have hends : ({ p with argumentsOnly := true } : Progress).Has given next? := by
            cases hp with
            | settled hsettles => exact .settled hsettles
            | supplied hsettles => exact .supplied hsettles
            | waits htakes hsettles => exact .waits htakes hsettles
          obtain ⟨rfl, rfl, hlength, hsettles⟩ := arguments_of_read hends rfl h hsettle
          exact ⟨"--" :: rest, _, (List.append_nil _).symm, .arguments hlength, hsettles⟩
        · obtain ⟨front, more, rfl, hline, hsettles⟩ := ih hhas (hbeside.ended.trans hended) h
          rw [hbeside.taken] at hline
          rw [List.append_assoc] at hsettles
          exact ⟨word :: front, _, rfl, .next hplain hline, hsettles⟩
        · obtain ⟨front, more, rfl, hline, hsettles⟩ := ih hhas (hbeside.ended.trans hended) h
          rw [hbeside.taken] at hline
          rw [List.append_assoc] at hsettles
          exact ⟨word :: front, _, rfl, .flags hword hline, hsettles⟩
        · obtain ⟨front, more, rfl, hline, hsettles⟩ := ih hhas (hstill.trans hended) h
          rw [htaken] at hline
          rw [List.append_assoc] at hsettles
          exact ⟨word :: front, _, rfl, .argument hplain hargument hline, hsettles⟩

/-- What stands behind a level starts with the name of one of its commands. -/
theorem mem_commands_of_read {name : String} {rest : List String}
    (h : g.read p words = .ok (q, some (name, rest))) : name ∈ g.commands := by
  induction words generalizing p with
  | nil => cases h
  | cons word words ih =>
    rw [read] at h
    split at h
    · next hname =>
      cases h
      simpa using hname.2.2
    · cases hnext : g.readWord p word with
      | error e => rw [hnext] at h; cases h
      | ok next =>
        rw [hnext] at h
        exact ih h

/-! ### What a line gives -/

/-- The flags that are given texts, or wait for one, are flags of the level. -/
theorem Letters.known {letters : List Char} {given : List (Flag × String)}
    (h : g.Letters letters given next?) :
    (∀ e ∈ given, e.1 ∈ g.flags) ∧ ∀ f, next? = some f → f ∈ g.flags := by
  induction h with
  | nil => exact ⟨by simp, by simp⟩
  | waits hfind => exact ⟨by simp, by simpa using List.mem_of_find?_eq_some hfind⟩
  | equals hfind | attached hfind =>
    exact ⟨by simpa using List.mem_of_find?_eq_some hfind, by simp⟩
  | switch hfind _ _ ih =>
    exact ⟨List.forall_mem_cons.2 ⟨List.mem_of_find?_eq_some hfind, ih.1⟩, ih.2⟩

theorem Word.known {text : List Char} {given : List (Flag × String)}
    (h : g.Word text given next?) :
    (∀ e ∈ given, e.1 ∈ g.flags) ∧ ∀ f, next? = some f → f ∈ g.flags := by
  cases h with
  | long _ _ hfind => exact ⟨by simp, by simpa using List.mem_of_find?_eq_some hfind⟩
  | longSwitch _ _ hfind | longWith _ hfind =>
    exact ⟨by simpa using List.mem_of_find?_eq_some hfind, by simp⟩
  | letters _ hletters => exact hletters.known

/-- What a line gives texts to are flags and arguments of the level. -/
theorem Line.known {taken : Nat} {given : List (Flag × String)}
    (h : g.Line taken next? words given) (hnext : ∀ f, next? = some f → f ∈ g.flags) :
    ∀ e ∈ given, e.1 ∈ g.flags ++ g.arguments := by
  induction h with
  | nil => simp
  | next _ _ ih =>
    exact List.forall_mem_cons.2 ⟨List.mem_append_left _ (hnext _ rfl), ih (by simp)⟩
  | flags hword _ ih =>
    exact List.forall_mem_append.2
      ⟨fun e he => List.mem_append_left _ (hword.known.1 e he), ih hword.known.2⟩
  | argument _ hargument _ ih =>
    exact List.forall_mem_cons.2
      ⟨List.mem_append_right _ (List.mem_of_getElem? hargument), ih (by simp)⟩
  | arguments =>
    intro e he
    exact List.mem_append_right _ (List.mem_of_mem_drop (List.of_mem_zip he).1)

/-! ### A line has one reading -/

theorem Letters.unique {letters : List Char} {given given' : List (Flag × String)}
    {next' : Option Flag} (h : g.Letters letters given next?)
    (h' : g.Letters letters given' next') : given = given' ∧ next? = next' := by
  induction h generalizing given' next' with
  | nil =>
    cases h'
    exact ⟨rfl, rfl⟩
  | waits hfind htakes => cases h' <;> simp_all
  | equals hfind htakes => cases h' <;> simp_all
  | attached hfind htakes hnonempty hequals => cases h' <;> simp_all
  | switch hfind htakes _ ih =>
    cases h' with
    | switch hfind' _ hrest =>
      obtain ⟨rfl, rfl⟩ := ih hrest
      simp_all
    | _ => simp_all

/-- A text has one first equals sign. -/
theorem eq_of_append_equals {name value name' value' : List Char} (hname : '=' ∉ name)
    (hname' : '=' ∉ name') (h : name ++ '=' :: value = name' ++ '=' :: value') :
    name = name' ∧ value = value' := by
  have hfront : ∀ {name value : List Char}, '=' ∉ name →
      (name ++ '=' :: value).takeWhile (· ≠ '=') = name := by
    intro name value hname
    rw [List.takeWhile_append_of_pos fun c hc => by simpa using ne_of_mem_of_not_mem hc hname]
    simp
  have hnames : name = name' := by rw [← hfront hname, h, hfront hname']
  subst hnames
  exact ⟨rfl, (List.cons.inj (List.append_cancel_left h)).2⟩

theorem Word.unique {text : List Char} {given given' : List (Flag × String)}
    {next' : Option Flag} (h : g.Word text given next?) (h' : g.Word text given' next') :
    given = given' ∧ next? = next' := by
  cases h with
  | long hnonempty hname hfind htakes => cases h' <;> simp_all
  | longSwitch hnonempty hname hfind htakes => cases h' <;> simp_all
  | longWith hname hfind htakes =>
    generalize htext : '-' :: '-' :: _ = text at h'
    cases h' with
    | long _ hname' | longSwitch _ hname' =>
      obtain rfl := (List.cons.inj (List.cons.inj htext).2).2
      simp at hname'
    | longWith hname' hfind' _ =>
      obtain ⟨rfl, rfl⟩ := eq_of_append_equals hname hname' (by simpa using htext)
      simp_all
    | letters hletter => exact absurd (List.cons.inj (List.cons.inj htext).2).1.symm hletter
  | letters hletter hletters =>
    cases h' with
    | letters _ hletters' => exact hletters.unique hletters'
    | _ => simp_all

theorem Word.not_plain {word : String} {given : List (Flag × String)}
    (h : g.Word word.toList given next?) : ¬ Plain word := by
  intro hplain
  generalize htext : word.toList = text at h
  cases h <;> exact hplain _ _ htext

theorem Word.ne_end {word : String} {given : List (Flag × String)}
    (h : g.Word word.toList given next?) : word ≠ "--" := by
  rintro rfl
  generalize htext : "--".toList = text at h
  cases h with
  | letters hletter => exact hletter (List.cons.inj (List.cons.inj htext).2).1.symm
  | _ => simp_all

/-- The words of a line say which texts it gives. -/
theorem Line.unique {taken : Nat} {given given' : List (Flag × String)}
    (h : g.Line taken next? words given) (h' : g.Line taken next? words given') :
    given = given' := by
  have hend : ¬ Plain "--" := fun h => h '-' [] rfl
  induction h generalizing given' with
  | nil =>
    cases h'
    rfl
  | next _ _ ih =>
    cases h' with
    | next _ hrest => rw [ih hrest]
  | flags hword _ ih =>
    cases h' with
    | flags hword' hrest =>
      obtain ⟨rfl, rfl⟩ := hword.unique hword'
      rw [ih hrest]
    | argument hplain => exact absurd hplain hword.not_plain
    | arguments => exact absurd rfl hword.ne_end
  | argument hplain hargument _ ih =>
    cases h' with
    | flags hword => exact absurd hplain hword.not_plain
    | argument _ hargument' hrest =>
      obtain rfl := Option.some.inj (hargument.symm.trans hargument')
      rw [ih hrest]
    | arguments => exact absurd hplain hend
  | arguments =>
    cases h' with
    | flags hword => exact absurd rfl hword.ne_end
    | argument hplain => exact absurd hplain hend
    | arguments => rfl

end Grammar

/-! ### Values under a name -/

/-- A number that is read has a place in 64 bits. -/
theorem number?_lt {text : String} {n : Nat} (h : number? text = some n) :
    n < Version.numberLimit := by
  have hshape : ∀ (bad : Prop) [Decidable bad] (m : Nat),
      (if bad then none else if m < Version.numberLimit then some m else none) = some n →
        n < Version.numberLimit := by
    intro bad _ m hm
    split at hm
    · cases hm
    · split at hm
      · next hlt =>
        cases hm
        exact hlt
      · cases hm
  exact hshape _ _ h

example : number? "18446744073709551615" = some (Version.numberLimit - 1) := by decide +kernel

/-- The text that is given under a name. -/
def textOf? (name : String) : List (Flag × String) → Option String
  | [] => none
  | (flag, raw) :: rest => if flag.name = name then some raw else textOf? name rest

/-- A text as a repository. -/
def repositoryOf? (raw : String) : Option Repository :=
  (Repository.parse raw).toOption

/-- A text as a path. -/
def pathOf? (raw : String) : Option Path :=
  if raw = "" then none else some ⟨raw⟩

/-- A text as an interval. -/
def intervalOf? (raw : String) : Option Interval :=
  (number? raw).bind Interval.ofMilliseconds?

section Lookup

variable {given : List (Flag × String)} {values : Values} {name : String}

/-- A kind that reads texts into values of one shape gives, under a name, what it reads from the
text that is given under the name. -/
theorem holds_lookup {α : Type} {kind : Kind} {read : String → Option α} {wrap : α → Value}
    (hread : ∀ raw v, kind.read raw = .ok v → ∃ a, read raw = some a ∧ v = wrap a)
    (h : List.Forall₂ Matches given values)
    (hkind : ∀ e ∈ given, e.1.name = name → e.1.kind = kind) :
    ∃ held, Holds read (textOf? name given) held ∧ values.lookup name = held.map wrap := by
  induction h with
  | nil => exact ⟨none, .unset, rfl⟩
  | @cons e value given values hmatches _ ih =>
    obtain ⟨flag, raw⟩ := e
    obtain ⟨own, v⟩ := value
    obtain ⟨rfl, hvalue⟩ := hmatches
    rw [textOf?]
    by_cases hsame : flag.name = name
    · have hflag : flag.kind = kind := hkind _ (List.mem_cons_self ..) hsame
      dsimp only at hvalue
      rw [hflag] at hvalue
      obtain ⟨a, ha, rfl⟩ := hread raw v hvalue
      rw [if_pos hsame]
      exact ⟨some a, .set ha, by simp [hsame]⟩
    · obtain ⟨held, hheld, hlookup⟩ := ih fun e he => hkind e (List.mem_cons_of_mem _ he)
      rw [if_neg hsame]
      refine ⟨held, hheld, ?_⟩
      have hother : (name == flag.name) = false := by simpa using Ne.symm hsame
      rw [List.lookup_cons, hother]
      exact hlookup

theorem holds_repository (h : List.Forall₂ Matches given values)
    (hkind : ∀ e ∈ given, e.1.name = name → e.1.kind = .repository) :
    Holds repositoryOf? (textOf? name given) (values.repository? name) := by
  have hread : ∀ raw v, Kind.repository.read raw = .ok v →
      ∃ r, repositoryOf? raw = some r ∧ v = .repository r := by
    intro raw v hv
    rw [Kind.read] at hv
    split at hv
    · next r hparse =>
      cases hv
      exact ⟨r, by rw [repositoryOf?, hparse]; rfl, rfl⟩
    · cases hv
  obtain ⟨held, hheld, hlookup⟩ := holds_lookup hread h hkind
  rw [Values.repository?, hlookup]
  cases held <;> exact hheld

theorem holds_text (h : List.Forall₂ Matches given values)
    (hkind : ∀ e ∈ given, e.1.name = name → e.1.kind = .text) :
    Holds some (textOf? name given) (values.text? name) := by
  have hread : ∀ raw v, Kind.text.read raw = .ok v → ∃ s, some raw = some s ∧ v = .text s := by
    intro raw v hv
    cases hv
    exact ⟨raw, rfl, rfl⟩
  obtain ⟨held, hheld, hlookup⟩ := holds_lookup hread h hkind
  rw [Values.text?, hlookup]
  cases held <;> exact hheld

theorem holds_path (h : List.Forall₂ Matches given values)
    (hkind : ∀ e ∈ given, e.1.name = name → e.1.kind = .path) :
    Holds pathOf? (textOf? name given) (values.path? name) := by
  have hread : ∀ raw v, Kind.path.read raw = .ok v → ∃ p, pathOf? raw = some p ∧ v = .path p := by
    intro raw v hv
    rw [Kind.read] at hv
    split at hv
    · cases hv
    · next hnonempty =>
      cases hv
      exact ⟨⟨raw⟩, if_neg hnonempty, rfl⟩
  obtain ⟨held, hheld, hlookup⟩ := holds_lookup hread h hkind
  rw [Values.path?, hlookup]
  cases held <;> exact hheld

theorem holds_interval (h : List.Forall₂ Matches given values)
    (hkind : ∀ e ∈ given, e.1.name = name → e.1.kind = .interval) :
    Holds intervalOf? (textOf? name given) (values.interval? name) := by
  have hread : ∀ raw v, Kind.interval.read raw = .ok v →
      ∃ i, intervalOf? raw = some i ∧ v = .interval i := by
    intro raw v hv
    rw [Kind.read] at hv
    split at hv
    · next i hi =>
      cases hv
      exact ⟨i, hi, rfl⟩
    · cases hv
  obtain ⟨held, hheld, hlookup⟩ := holds_lookup hread h hkind
  rw [Values.interval?, hlookup]
  cases held <;> exact hheld

/-- Nothing is given under a name that no flag and no argument has. -/
theorem textOf?_eq_none (h : ∀ e ∈ given, e.1.name ≠ name) : textOf? name given = none := by
  induction given with
  | nil => rfl
  | cons e rest ih =>
    rw [textOf?, if_neg (h e (List.mem_cons_self ..))]
    exact ih fun e he => h e (List.mem_cons_of_mem _ he)

end Lookup

/-! ### Invocations -/

namespace Command

/-- The flags on where gems are looked up. -/
def remoteFlags : Command → RemoteFlags
  | add _ remote _ _ => remote
  | list remote => remote
  | _ => ⟨none, none, none⟩

/-- The directory for gems that is given. -/
def output? : Command → Option Path
  | add _ _ output _ => output
  | _ => none

/-- The storage that is given. -/
def storage? : Command → Option Path
  | sync storage _ _ => storage
  | _ => none

/-- The interval that is given. -/
def interval? : Command → Option Interval
  | sync _ _ interval => interval
  | _ => none

/-- The command has the settings that are given, each by its own name. -/
structure Heeds (command : Command) (given : List (Flag × String)) : Prop where
  repository : Holds repositoryOf? (textOf? "repo" given) command.remoteFlags.repo
  branch : Holds some (textOf? "branch" given) command.remoteFlags.branch
  gemsDir : Holds some (textOf? "dir" given) command.remoteFlags.dir
  output : Holds pathOf? (textOf? "output" given) command.output?
  storage : Holds pathOf? (textOf? "storage" given) command.storage?
  pollInterval : Holds intervalOf? (textOf? "interval-ms" given) command.interval?

/-- The settings there are, and the kinds of their values. -/
def settingKinds : List (String × Kind) :=
  [("repo", .repository), ("branch", .text), ("dir", .text), ("output", .path),
    ("storage", .path), ("interval-ms", .interval)]

theorem kind_of_name {name : String} :
    ∀ f ∈ (innerGrammar name).flags ++ (innerGrammar name).arguments,
      ∀ setting ∈ settingKinds, f.name = setting.1 → f.kind = setting.2 := by
  unfold innerGrammar
  split <;> decide

theorem heeds_ofValues {name : String} {given : List (Flag × String)} {values : Values}
    {command : Command} (hname : name ∈ ["add", "list", "sync", "update"])
    (h : List.Forall₂ Matches given values) (hcommand : ofValues name values = .ok command)
    (hknown : ∀ e ∈ given, e.1 ∈ (innerGrammar name).flags ++ (innerGrammar name).arguments) :
    command.Heeds given := by
  have hkind : ∀ setting ∈ settingKinds, ∀ e ∈ given, e.1.name = setting.1 →
      e.1.kind = setting.2 :=
    fun setting hsetting e he => kind_of_name e.1 (hknown e he) setting hsetting
  have hunset : ∀ {α : Type} {read : String → Option α} {name' : String},
      (∀ f ∈ (innerGrammar name).flags ++ (innerGrammar name).arguments, f.name ≠ name') →
      Holds read (textOf? name' given) none := by
    intro α read name' hother
    rw [textOf?_eq_none fun e he => hother e.1 (hknown e he)]
    exact .unset
  simp only [List.mem_cons, List.not_mem_nil, or_false] at hname
  have hrepo := holds_repository h (hkind ("repo", .repository) (by decide))
  have hbranch := holds_text h (hkind ("branch", .text) (by decide))
  have hdir := holds_text h (hkind ("dir", .text) (by decide))
  rcases hname with rfl | rfl | rfl | rfl
  · rw [ofValues] at hcommand
    split at hcommand
    · cases hcommand
      exact ⟨hrepo, hbranch, hdir, holds_path h (hkind ("output", .path) (by decide)),
        hunset (by decide), hunset (by decide)⟩
    · cases hcommand
  · cases hcommand
    exact ⟨hrepo, hbranch, hdir, hunset (by decide), hunset (by decide), hunset (by decide)⟩
  · cases hcommand
    exact ⟨hunset (by decide), hunset (by decide), hunset (by decide), hunset (by decide),
      holds_path h (hkind ("storage", .path) (by decide)),
      holds_interval h (hkind ("interval-ms", .interval) (by decide))⟩
  · cases hcommand
    exact ⟨hunset (by decide), hunset (by decide), hunset (by decide), hunset (by decide),
      hunset (by decide), hunset (by decide)⟩

end Command

/-- What an accepted line of steps answers, its first step and then the others answered. -/
theorem exists_ok_of_bind {ε α β : Type} {step : Except ε α} {next : α → Except ε β} {b : β}
    (h : step >>= next = .ok b) : ∃ a, step = .ok a ∧ next a = .ok b := by
  cases step with
  | error e => cases h
  | ok a => exact ⟨a, rfl, h⟩

theorem has_start : Progress.start.Has [] none :=
  .settled settles_nil

/-- The words behind a command are a line, and the command has the settings that the line
gives. -/
theorem exists_line_of_readInner {name : String} {rest : List String} {command : Command}
    {values : Values} (hname : name ∈ ["add", "list", "sync", "update"])
    (h : readInner name rest = .ok (command, values)) :
    command.name = name ∧
      ∃ given, (innerGrammar name).Line 0 none rest given ∧ (given.map (·.1.name)).Nodup ∧
        command.Heeds given := by
  obtain ⟨⟨p, left⟩, hread, h⟩ := exists_ok_of_bind h
  obtain ⟨settled, hsettle, h⟩ := exists_ok_of_bind h
  obtain ⟨command', hcommand, h⟩ := exists_ok_of_bind h
  cases h
  obtain ⟨front, given, hrest, hline, hsettles⟩ :=
    Grammar.line_of_read has_start rfl hread hsettle
  -- a level without commands is read to its end
  have hleft : left = none := by
    have hcommands : (innerGrammar name).commands = [] := by
      unfold innerGrammar
      split <;> rfl
    cases left with
    | none => rfl
    | some command =>
      have hmem := Grammar.mem_commands_of_read hread
      rw [hcommands] at hmem
      cases hmem
  rw [hleft, Grammar.behind, List.append_nil] at hrest
  subst hrest
  refine ⟨?_, given, hline, hsettles.distinct,
    Command.heeds_ofValues hname hsettles.values_match hcommand (hline.known (by simp))⟩
  simp only [List.mem_cons, List.not_mem_nil, or_false] at hname
  rcases hname with rfl | rfl | rfl | rfl
  · rw [Command.ofValues] at hcommand
    split at hcommand <;> cases hcommand
    rfl
  all_goals
    cases hcommand
    rfl

/-- An accepted command line is a line in front of a command and a line behind it, and the
command has the settings that the line behind it gives. -/
theorem Invocation.exists_line {i : Invocation} {argv : List String}
    (h : Invocation.parse argv = .ok i) :
    ∃ front outer rest given, argv.drop 1 = front ++ i.command.name :: rest ∧
      outerGrammar.Line 0 none front outer ∧
      (innerGrammar i.command.name).Line 0 none rest given ∧ (given.map (·.1.name)).Nodup ∧
      i.command.Heeds given := by
  obtain ⟨⟨p, left⟩, hread, h⟩ := exists_ok_of_bind h
  dsimp only at h
  split at h
  · -- without a command nothing is accepted
    obtain ⟨settled, -, h⟩ := exists_ok_of_bind h
    split at h <;> cases h
  · cases h
  · next name rest hhelp =>
    obtain ⟨⟨command, values⟩, hinner, h⟩ := exists_ok_of_bind h
    obtain ⟨settled, hsettle, h⟩ := exists_ok_of_bind h
    cases h
    have hname : name ∈ ["add", "list", "sync", "update"] := by
      have hmem : name ∈ commandNames := Grammar.mem_commands_of_read hread
      have hne : name ≠ "help" := hhelp
      simpa [commandNames, hne] using hmem
    obtain ⟨rfl, given, hline, hdistinct, hheeds⟩ := exists_line_of_readInner hname hinner
    obtain ⟨front, outer, hwords, houter, -⟩ := Grammar.line_of_read has_start rfl hread hsettle
    exact ⟨front, outer, rest, given, hwords, houter, hline, hdistinct, hheeds⟩

end CommandLine

end GemCourier
