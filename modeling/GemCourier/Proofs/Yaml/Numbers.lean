/-
GemCourier/Proofs/Yaml/Numbers.lean

The whole numbers of a YAML text have a place in 64 bits.

A number out of bounds is no whole number to the reader of scalars, so every scalar it
makes is in bounds, and everything else only puts values together that were made
before.  An alias brings a value back from anywhere in the document, so the values that
are known by a name are in bounds too: that is what the reading keeps (`Gives`).  The
nine readers call each other with one step less, and what is said of all of them at
once (`Sound`) is carried by induction on the steps.

Main results: `Node.inBounds_ofScalar`, `sound_readers`, `inBounds_documents`.
-/
import GemCourier.Yaml.Document

namespace GemCourier.Yaml

/-! ### Values in bounds -/

/-- Every whole number in the value has a place in 64 bits. -/
inductive Node.InBounds : Node → Prop
  | scalar {s : Scalar} : (∀ n, s = .integer n → fits n = true) → InBounds (.scalar s)
  | unreadable : InBounds .unreadable
  | tagged {handle suffix : String} {value : Node} :
      InBounds value → InBounds (.tagged handle suffix value)
  | sequence {items : List Node} : (∀ item ∈ items, InBounds item) → InBounds (.sequence items)
  | mapping {entries : List (Node × Node)} :
      (∀ e ∈ entries, InBounds e.1) → (∀ e ∈ entries, InBounds e.2) → InBounds (.mapping entries)

/-- All values of a list are in bounds. -/
def AllInBounds (items : List Node) : Prop :=
  ∀ item ∈ items, item.InBounds

theorem integer?_fits {base : Nat} {text : List Char} {n : Int} (h : integer? base text = some n) :
    fits n = true :=
  (Option.filter_eq_some_iff.1 h).2

theorem Scalar.plainInteger?_fits {text : String} {n : Int} (h : plainInteger? text = some n) :
    fits n = true := by
  rw [plainInteger?] at h
  rcases Option.or_eq_some_iff.1 h with h | ⟨-, h⟩
  · split at h
    · exact integer?_fits h
    · exact integer?_fits h
    · exact integer?_fits h
    · cases h
  · exact integer?_fits h

theorem Scalar.ofPlain_fits {text : String} {n : Int} (h : ofPlain text = .integer n) :
    fits n = true := by
  rw [ofPlain] at h
  split at h
  · cases h
  · split at h
    · cases h
    · split at h
      · cases h
      · split at h
        · next m hm =>
          cases h
          exact plainInteger?_fits hm
        · split at h <;> cases h

theorem Scalar.ofCore?_fits {kind text : String} {n : Int}
    (h : ofCore? kind text = some (.integer n)) : fits n = true := by
  unfold ofCore? at h
  split at h
  · split at h
    · cases h
    · split at h <;> cases h
  · obtain ⟨m, hm, hsame⟩ := Option.map_eq_some_iff.1 h
    cases hsame
    exact integer?_fits hm
  · obtain ⟨shown, -, hsame⟩ := Option.map_eq_some_iff.1 h
    cases hsame
  · split at h <;> cases h
  · cases h
  · cases h

namespace Node

theorem inBounds_absent : absent.InBounds :=
  .scalar (by simp)

/-- A scalar is read to a value in bounds. -/
theorem inBounds_ofScalar (plain : Bool) (tag : Option Tag) (value : String) :
    (ofScalar plain tag value).InBounds := by
  rw [ofScalar]
  split
  · exact .scalar (by simp)
  · split
    · split
      · next s hs => exact .scalar fun n hn => Scalar.ofCore?_fits (hn ▸ hs)
      · exact .unreadable
    · split
      · exact .scalar (by simp)
      · exact .scalar fun n hn => Scalar.ofPlain_fits hn

theorem InBounds.withTag {value : Node} (h : value.InBounds) (tag : Option Tag) :
    (withTag tag value).InBounds := by
  unfold Node.withTag
  split
  · split
    · exact h
    · exact .tagged h
  · exact h

/-- The keys and the values of entries are in bounds if the nodes are that make them up. -/
theorem inBounds_entriesOf {entries : List (Node × Node)} {items : List Node}
    (hentries : ∀ e ∈ entries, e.1.InBounds ∧ e.2.InBounds) (hitems : AllInBounds items) :
    ∀ e ∈ entriesOf entries items, e.1.InBounds ∧ e.2.InBounds := by
  fun_induction entriesOf entries items with
  | case1 entries => exact hentries
  | case2 entries _ => exact hentries
  | case3 entries value rest ih => exact ih hentries fun item hitem => hitems item (by simp_all)
  | case4 entries key value rest _ ih =>
    refine ih (fun e he => ?_) fun item hitem => hitems item (by simp [hitem])
    rw [insertEntry] at he
    rcases List.mem_append.1 he with hold | hnew
    · exact hentries e (List.mem_filter.1 hold).1
    · rw [List.mem_singleton.1 hnew]
      exact ⟨hitems key (by simp), hitems value (by simp)⟩

theorem inBounds_mapping {items : List Node} (h : AllInBounds items) :
    (mapping (entriesOf [] items)).InBounds := by
  have hentries : ∀ e ∈ entriesOf [] items, e.1.InBounds ∧ e.2.InBounds :=
    inBounds_entriesOf (by simp) h
  exact .mapping (fun e he => (hentries e he).1) fun e he => (hentries e he).2

end Node

theorem allInBounds_nil : AllInBounds [] := by
  simp [AllInBounds]

theorem AllInBounds.cons {item : Node} {items : List Node} (hitem : item.InBounds)
    (hitems : AllInBounds items) : AllInBounds (item :: items) := by
  simpa [AllInBounds] using ⟨hitem, hitems⟩

/-! ### What a reader gives -/

/-- The values that names stand for are in bounds. -/
def Names.InBounds (n : Names) : Prop :=
  ∀ number value, (number, value) ∈ n.nodes → value.InBounds

section Gives

variable {α β : Type} {P : α → Prop} {Q : β → Prop}

/-- What is read has the property, and the names are in bounds then. -/
def Gives (P : α → Prop) (result : Composed α) : Prop :=
  ∀ a n rest, result = some (a, n, rest) → P a ∧ n.InBounds

theorem gives_none : Gives P none := by
  rintro a n rest ⟨⟩

theorem gives_some {a : α} {n : Names} {rest : List Token} (ha : P a) (hn : n.InBounds) :
    Gives P (some (a, n, rest)) := by
  rintro _ _ _ ⟨⟩
  exact ⟨ha, hn⟩

theorem Gives.bind {result : Composed α} {next : α × Names × List Token → Composed β}
    (hresult : Gives P result)
    (hnext : ∀ a n rest, P a → n.InBounds → Gives Q (next (a, n, rest))) :
    Gives Q (result.bind next) := by
  intro b n rest h
  obtain ⟨⟨a, n', rest'⟩, ha, hb⟩ := Option.bind_eq_some_iff.1 h
  obtain ⟨hP, hn⟩ := hresult a n' rest' ha
  exact hnext a n' rest' hP hn b n rest hb

theorem Gives.map {result : Composed α} {f : α → β} (hresult : Gives P result)
    (hf : ∀ a, P a → Q (f a)) :
    Gives Q (result.map fun (a, n, rest) => (f a, n, rest)) := by
  intro b n rest h
  obtain ⟨⟨a, n', rest'⟩, ha, hb⟩ := Option.map_eq_some_iff.1 h
  cases hb
  obtain ⟨hP, hn⟩ := hresult a n rest ha
  exact ⟨hf a hP, hn⟩

end Gives

theorem Names.InBounds.alias? {n : Names} (hn : n.InBounds) {name : String} {value : Node}
    (h : n.alias? name = some value) : value.InBounds := by
  obtain ⟨number, -, hvalue⟩ := Option.map_eq_some_iff.1 h
  cases hlookup : n.nodes.lookup number with
  | none =>
    rw [hlookup] at hvalue
    exact hvalue ▸ .unreadable
  | some found =>
    obtain ⟨front, back, hsplit, -⟩ := List.lookup_eq_some_iff.1 hlookup
    rw [hlookup] at hvalue
    exact hvalue ▸ hn number found (by simp [hsplit])

theorem Names.InBounds.complete {n : Names} (hn : n.InBounds) (p : Properties) {value : Node}
    (hvalue : value.InBounds) : (n.complete p value).InBounds := by
  rw [Names.complete]
  split
  · intro number found hmem
    rcases List.mem_cons.1 hmem with heq | hmem
    · cases heq
      exact hvalue
    · exact hn number found hmem
  · exact hn

/-- The properties of a node give names to no values. -/
theorem gives_readProperties {n : Names} (hn : n.InBounds) (tokens : List Token) :
    Gives (fun _ => True) (readProperties n tokens) := by
  have hanchor : ∀ tokens, (readAnchor n tokens).2.1.InBounds := by
    intro tokens
    rw [readAnchor.eq_def]
    split <;> exact hn
  unfold readProperties
  split
  · intro p n' rest h
    obtain ⟨⟨tag, behind⟩, -, hsame⟩ := Option.map_eq_some_iff.1 h
    cases hsame
    exact ⟨trivial, hanchor behind⟩
  · dsimp only
    split
    · intro p n' rest h
      obtain ⟨⟨tag, behind⟩, -, hsame⟩ := Option.map_eq_some_iff.1 h
      cases hsame
      exact ⟨trivial, hanchor tokens⟩
    · exact gives_some trivial (hanchor tokens)

/-! ### The readers -/

/-- With this many steps every reader gives values in bounds for names in bounds. -/
structure Sound (steps : Nat) : Prop where
  node : ∀ {n}, n.InBounds → ∀ block flat tokens,
    Gives Node.InBounds (readNode steps block flat n tokens)
  blockItems : ∀ {n}, n.InBounds → ∀ tokens, Gives AllInBounds (readBlockItems steps n tokens)
  flatItems : ∀ {n}, n.InBounds → ∀ tokens, Gives AllInBounds (readFlatItems steps n tokens)
  blockPairs : ∀ {n}, n.InBounds → ∀ tokens, Gives AllInBounds (readBlockPairs steps n tokens)
  blockValue : ∀ {n}, n.InBounds → ∀ {key}, key.InBounds → ∀ tokens,
    Gives AllInBounds (readBlockValue steps key n tokens)
  flowItems : ∀ {n}, n.InBounds → ∀ first tokens,
    Gives AllInBounds (readFlowItems steps first n tokens)
  flowPair : ∀ {n}, n.InBounds → ∀ tokens, Gives Node.InBounds (readFlowPair steps n tokens)
  flowPairs : ∀ {n}, n.InBounds → ∀ first tokens,
    Gives AllInBounds (readFlowPairs steps first n tokens)
  flowValue : ∀ {n}, n.InBounds → ∀ {key}, key.InBounds → ∀ tokens,
    Gives AllInBounds (readFlowValue steps key n tokens)

section Step

variable {steps : Nat} {n : Names}

theorem gives_absent (hn : n.InBounds) (rest : List Token) :
    Gives Node.InBounds (some (absent, n, rest)) :=
  gives_some Node.inBounds_absent hn

theorem gives_nil (hn : n.InBounds) (rest : List Token) :
    Gives AllInBounds (some (([] : List Node), n, rest)) :=
  gives_some allInBounds_nil hn

theorem gives_readNode (hsteps : Sound steps) (hn : n.InBounds) (block flat : Bool)
    (tokens : List Token) : Gives Node.InBounds (readNode (steps + 1) block flat n tokens) := by
  have hcomplete : ∀ {n : Names} {value : Node} (p : Properties) (rest : List Token),
      n.InBounds → value.InBounds →
      Gives Node.InBounds (some (value.withTag p.tag, n.complete p (value.withTag p.tag), rest)) :=
    fun p rest hn hvalue =>
      gives_some (hvalue.withTag _) (hn.complete p (hvalue.withTag _))
  rw [readNode.eq_def]
  dsimp only
  split
  · intro value n' rest h
    obtain ⟨found, hfound, hsame⟩ := Option.map_eq_some_iff.1 h
    cases hsame
    exact ⟨hn.alias? hfound, hn⟩
  · cases hproperties : readProperties n tokens with
    | none => exact gives_none
    | some outcome =>
      obtain ⟨p, n', tokens'⟩ := outcome
      obtain ⟨-, hn'⟩ := gives_readProperties hn tokens p n' tokens' hproperties
      have hempty : Gives Node.InBounds
          (if p.number.isSome ∨ p.tag.isSome then
            some ((Node.ofScalar true p.tag "").withTag p.tag,
              n'.complete p ((Node.ofScalar true p.tag "").withTag p.tag), tokens')
          else none) := by
        split
        · exact hcomplete p _ hn' (Node.inBounds_ofScalar _ _ _)
        · exact gives_none
      dsimp only
      split
      · exact hcomplete p _ hn' (Node.inBounds_ofScalar _ _ _)
      · exact (hsteps.flowItems hn' _ _).bind fun items n rest hitems hn =>
          hcomplete p rest hn (.sequence hitems)
      · exact (hsteps.flowPairs hn' _ _).bind fun items n rest hitems hn =>
          hcomplete p rest hn (Node.inBounds_mapping hitems)
      · split
        · exact (hsteps.flatItems hn' _).bind fun items n rest hitems hn =>
            hcomplete p rest hn (.sequence hitems)
        · exact hempty
      · split
        · exact (hsteps.blockItems hn' _).bind fun items n rest hitems hn =>
            hcomplete p rest hn (.sequence hitems)
        · exact hempty
      · split
        · exact (hsteps.blockPairs hn' _).bind fun items n rest hitems hn =>
            hcomplete p rest hn (Node.inBounds_mapping hitems)
        · exact hempty
      · exact hempty

theorem gives_readBlockItems (hsteps : Sound steps) (hn : n.InBounds) (tokens : List Token) :
    Gives AllInBounds (readBlockItems (steps + 1) n tokens) := by
  rw [readBlockItems.eq_def]
  dsimp only
  split
  · exact gives_nil hn _
  · refine Gives.bind (P := Node.InBounds) ?_ fun item n rest hitem hn =>
      (hsteps.blockItems hn rest).map fun items hitems => hitems.cons hitem
    split
    · exact gives_absent hn _
    · exact gives_absent hn _
    · exact hsteps.node hn _ _ _
  · exact gives_none

theorem gives_readFlatItems (hsteps : Sound steps) (hn : n.InBounds) (tokens : List Token) :
    Gives AllInBounds (readFlatItems (steps + 1) n tokens) := by
  rw [readFlatItems.eq_def]
  dsimp only
  split
  · refine Gives.bind (P := Node.InBounds) ?_ fun item n rest hitem hn =>
      (hsteps.flatItems hn rest).map fun items hitems => hitems.cons hitem
    split
    · exact gives_absent hn _
    · exact hsteps.node hn _ _ _
  · exact gives_nil hn _

theorem gives_readBlockPairs (hsteps : Sound steps) (hn : n.InBounds) (tokens : List Token) :
    Gives AllInBounds (readBlockPairs (steps + 1) n tokens) := by
  rw [readBlockPairs.eq_def]
  dsimp only
  split
  · exact gives_nil hn _
  · refine Gives.bind (P := Node.InBounds) ?_ fun key n rest hkey hn =>
      hsteps.blockValue hn hkey rest
    split
    · exact gives_absent hn _
    · exact hsteps.node hn _ _ _
  · exact hsteps.blockValue hn Node.inBounds_absent _
  · exact gives_none

theorem gives_readBlockValue (hsteps : Sound steps) (hn : n.InBounds) {key : Node}
    (hkey : key.InBounds) (tokens : List Token) :
    Gives AllInBounds (readBlockValue (steps + 1) key n tokens) := by
  rw [readBlockValue.eq_def]
  dsimp only
  refine Gives.bind (P := Node.InBounds) ?_ fun value n rest hvalue hn =>
    (hsteps.blockPairs hn rest).map fun items hitems => (hitems.cons hvalue).cons hkey
  split
  · split
    · exact gives_absent hn _
    · exact hsteps.node hn _ _ _
  · exact gives_absent hn _

theorem gives_readFlowItems (hsteps : Sound steps) (hn : n.InBounds) (first : Bool)
    (tokens : List Token) : Gives AllInBounds (readFlowItems (steps + 1) first n tokens) := by
  rw [readFlowItems.eq_def]
  dsimp only
  split
  · exact gives_none
  · exact gives_nil hn _
  · exact (hsteps.flowPair hn _).bind fun item n rest hitem hn =>
      (hsteps.flowItems hn false rest).map fun items hitems => hitems.cons hitem
  · exact (hsteps.node hn _ _ _).bind fun item n rest hitem hn =>
      (hsteps.flowItems hn false rest).map fun items hitems => hitems.cons hitem

theorem gives_readFlowPair (hsteps : Sound steps) (hn : n.InBounds) (tokens : List Token) :
    Gives Node.InBounds (readFlowPair (steps + 1) n tokens) := by
  rw [readFlowPair.eq_def]
  dsimp only
  refine Gives.bind (P := Node.InBounds) ?_ fun key n rest hkey hn => ?_
  · split
    · exact gives_absent hn _
    · exact gives_absent hn _
    · exact gives_absent hn _
    · exact hsteps.node hn _ _ _
  · refine Gives.map (P := Node.InBounds) ?_ fun value hvalue =>
      Node.inBounds_mapping ((allInBounds_nil.cons hvalue).cons hkey)
    split
    · split
      · exact gives_absent hn _
      · exact hsteps.node hn _ _ _
    · exact gives_absent hn _

theorem gives_readFlowPairs (hsteps : Sound steps) (hn : n.InBounds) (first : Bool)
    (tokens : List Token) : Gives AllInBounds (readFlowPairs (steps + 1) first n tokens) := by
  rw [readFlowPairs.eq_def]
  dsimp only
  split
  · exact gives_none
  · exact gives_nil hn _
  · refine Gives.bind (P := Node.InBounds) ?_ fun key n rest hkey hn =>
      hsteps.flowValue hn hkey rest
    split
    · exact gives_absent hn _
    · exact hsteps.node hn _ _ _
  · exact hsteps.flowValue hn Node.inBounds_absent _
  · exact (hsteps.node hn _ _ _).bind fun key n rest hkey hn =>
      (hsteps.flowPairs hn false rest).map fun items hitems =>
        (hitems.cons Node.inBounds_absent).cons hkey

theorem gives_readFlowValue (hsteps : Sound steps) (hn : n.InBounds) {key : Node}
    (hkey : key.InBounds) (tokens : List Token) :
    Gives AllInBounds (readFlowValue (steps + 1) key n tokens) := by
  rw [readFlowValue.eq_def]
  dsimp only
  refine Gives.bind (P := Node.InBounds) ?_ fun value n rest hvalue hn =>
    (hsteps.flowPairs hn false rest).map fun items hitems => (hitems.cons hvalue).cons hkey
  split
  · split
    · exact gives_absent hn _
    · exact hsteps.node hn _ _ _
  · exact gives_absent hn _

end Step

/-- The readers give values in bounds, whatever the number of steps. -/
theorem sound_readers (steps : Nat) : Sound steps := by
  induction steps with
  | zero =>
    refine ⟨?_, ?_, ?_, ?_, ?_, ?_, ?_, ?_, ?_⟩ <;> intros <;> exact gives_none
  | succ steps ih =>
    exact {
      node := gives_readNode ih
      blockItems := gives_readBlockItems ih
      flatItems := gives_readFlatItems ih
      blockPairs := gives_readBlockPairs ih
      blockValue := gives_readBlockValue ih
      flowItems := gives_readFlowItems ih
      flowPair := gives_readFlowPair ih
      flowPairs := gives_readFlowPairs ih
      flowValue := gives_readFlowValue ih }

/-! ### Documents -/

theorem nodes_readDirectives {versioned : Bool} {n n' : Names} {tokens rest : List Token}
    (h : readDirectives versioned n tokens = some (n', rest)) : n'.nodes = n.nodes := by
  fun_induction readDirectives versioned n tokens with
  | case1 => cases h
  | case2 versioned n rest' _ ih => exact ih h
  | case3 => cases h
  | case4 versioned n handle address rest' _ ih => exact ih h
  | case5 => cases h; rfl

theorem gives_readDocument {n : Names} (hn : n.InBounds) (bare : Bool) (steps : Nat)
    (tokens : List Token) : Gives Node.InBounds (readDocument bare steps n tokens) := by
  rw [readDocument]
  split
  · exact (sound_readers steps).node hn _ _ _
  · split
    · next n' rest hdirectives =>
      have hn' : n'.InBounds := by
        rw [Names.InBounds, nodes_readDirectives hdirectives]
        exact hn
      split
      · exact gives_absent hn' _
      · exact (sound_readers steps).node hn' _ _ _
    · exact gives_none

theorem inBounds_readDocuments {steps : Nat} {bare : Bool} {n : Names} {tokens : List Token}
    {documents : List Node} (hn : n.InBounds)
    (h : readDocuments steps bare n tokens = some documents) : AllInBounds documents := by
  induction steps generalizing bare n tokens documents with
  | zero => cases h
  | succ steps ih =>
    rw [readDocuments] at h
    split at h
    · cases h
      exact allInBounds_nil
    · obtain ⟨⟨document, n', rest⟩, hdocument, h⟩ := Option.bind_eq_some_iff.1 h
      obtain ⟨hbounds, hn'⟩ := gives_readDocument hn bare steps _ _ _ _ hdocument
      have hmore : ∀ {bare rest}, (readDocuments steps bare n'.endDocument rest).map
          (document :: ·) = some documents → AllInBounds documents := by
        intro bare rest h
        obtain ⟨others, hothers, rfl⟩ := Option.map_eq_some_iff.1 h
        have hended : n'.endDocument.InBounds := hn'
        exact (ih hended hothers).cons hbounds
      dsimp only at h
      split at h
      · exact hmore h
      · split at h
        · cases h
        · exact hmore h

/-- The whole numbers of a text that is read have a place in 64 bits. -/
theorem inBounds_documents {text : String} {documents : List Node}
    (h : documents? text = some documents) : AllInBounds documents := by
  obtain ⟨tokens, -, h⟩ := Option.bind_eq_some_iff.1 h
  refine inBounds_readDocuments ?_ h
  intro number value hmem
  cases hmem

end GemCourier.Yaml
