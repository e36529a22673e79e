/-
GemCourier/Yaml/Document.lean

The documents of a YAML text.

A text holds documents one after the other, each a single node.  Names given by
anchors and handles given by directives hold for one document.  An alias stands
for the node that has its name, and is unreadable inside that node itself.
-/
import GemCourier.Yaml.Token
import GemCourier.Yaml.Node

namespace GemCourier.Yaml

/-- The names in use while documents are read. -/
structure Names where
  /-- The number of the node each anchor names. -/
  anchors : List (String × Nat)
  /-- The nodes that are complete, by number. -/
  nodes : List (Nat × Node)
  /-- The number of the next node with an anchor. -/
  next : Nat
  /-- The address of each handle. -/
  handles : List (String × String)

namespace Names

/-- No names. -/
def none : Names := ⟨[], [], 0, []⟩

/-- The names once a document has ended. -/
def endDocument (n : Names) : Names := { n with anchors := [], handles := [] }

/-- The node an alias stands for, if its name is known. -/
def alias? (n : Names) (name : String) : Option Node :=
  (n.anchors.lookup name).map fun number => (n.nodes.lookup number).getD .unreadable

/-- The tag that a handle and a suffix spell, if the handle is known or local. -/
def tag? (n : Names) (handle suffix : String) : Option Tag :=
  if handle = "!!" then some ⟨(n.handles.lookup "!!").getD coreAddress, suffix⟩
  else match n.handles.lookup handle with
    | some address => some ⟨address, suffix⟩
    | Option.none => if 2 ≤ handle.length then Option.none else some ⟨handle, suffix⟩

end Names

/-- The properties of a node: the number its anchor gives it, and its tag. -/
structure Properties where
  number : Option Nat
  tag : Option Tag

/-- The names once a node with some properties is complete. -/
def Names.complete (n : Names) (p : Properties) (value : Node) : Names :=
  match p.number with
  | some number => { n with nodes := (number, value) :: n.nodes }
  | Option.none => n

/-- What reading a node gives: the node, the names from then on, and the tokens left. -/
abbrev Composed (α : Type) := Option (α × Names × List Token)

/-- The value of a node that is left out. -/
def absent : Node := .scalar .null

/-- The anchor of a node, if one stands here. -/
def readAnchor (n : Names) : List Token → Option Nat × Names × List Token
  | .anchor name :: rest =>
    (some n.next, { n with anchors := (name, n.next) :: n.anchors, next := n.next + 1 }, rest)
  | tokens => (none, n, tokens)

/-- The tag of a node, if one stands here. -/
def readTag (n : Names) : List Token → Option (Option Tag × List Token)
  | .tag handle suffix :: rest => (n.tag? handle suffix).map fun t => (some t, rest)
  | tokens => some (none, tokens)

/-- The properties of a node, an anchor and a tag in either order. -/
def readProperties (n : Names) (tokens : List Token) : Composed Properties :=
  match tokens with
  | .tag .. :: _ =>
    (readTag n tokens).map fun (tag, rest) =>
      let (number, n, rest) := readAnchor n rest
      (⟨number, tag⟩, n, rest)
  | _ =>
    let (number, n, rest) := readAnchor n tokens
    if number.isSome then (readTag n rest).map fun (tag, rest) => (⟨number, tag⟩, n, rest)
    else some (⟨none, none⟩, n, rest)

/-- Whether a value in a block is left out before a token. -/
def endsBlockItem : Token → Bool
  | .key => true
  | .value => true
  | .blockEnd => true
  | _ => false

/-- Whether an item between brackets is left out before a token. -/
def endsFlowItem (closing : Token) (t : Token) : Bool :=
  t = .flowEntry || t = closing

mutual

/-- A node.  `block` says whether a block may start here, and `flat` whether entries may stand
at the column of the mapping they belong to. -/
def readNode : Nat → Bool → Bool → Names → List Token → Composed Node
  | 0, _, _, _, _ => none
  | steps + 1, block, flat, n, tokens =>
    match tokens with
    | .alias name :: rest => (n.alias? name).map fun value => (value, n, rest)
    | _ => match readProperties n tokens with
      | none => none
      | some (p, n, tokens) =>
        let complete (value : Node) (n : Names) (rest : List Token) : Composed Node :=
          let value := value.withTag p.tag
          some (value, n.complete p value, rest)
        match tokens with
        | .scalar plain text :: rest => complete (.ofScalar plain p.tag text) n rest
        | .flowSequenceStart :: rest =>
          (readFlowItems steps true n rest).bind fun (items, n, rest) =>
            complete (.sequence items) n rest
        | .flowMappingStart :: rest =>
          (readFlowPairs steps true n rest).bind fun (items, n, rest) =>
            complete (.mapping (Node.entriesOf [] items)) n rest
        | .blockEntry :: _ =>
          if flat then
            (readFlatItems steps n tokens).bind fun (items, n, rest) =>
              complete (.sequence items) n rest
          else if p.number.isSome ∨ p.tag.isSome then
            complete (.ofScalar true p.tag "") n tokens
          else none
        | .blockSequenceStart :: rest =>
          if block then
            (readBlockItems steps n rest).bind fun (items, n, rest) =>
              complete (.sequence items) n rest
          else if p.number.isSome ∨ p.tag.isSome then
            complete (.ofScalar true p.tag "") n tokens
          else none
        | .blockMappingStart :: rest =>
          if block then
            (readBlockPairs steps n rest).bind fun (items, n, rest) =>
              complete (.mapping (Node.entriesOf [] items)) n rest
          else if p.number.isSome ∨ p.tag.isSome then
            complete (.ofScalar true p.tag "") n tokens
          else none
        | _ =>
          if p.number.isSome ∨ p.tag.isSome then complete (.ofScalar true p.tag "") n tokens
          else none

/-- The items of a block sequence up to its end. -/
def readBlockItems : Nat → Names → List Token → Composed (List Node)
  | 0, _, _ => none
  | steps + 1, n, tokens =>
    match tokens with
    | .blockEnd :: rest => some ([], n, rest)
    | .blockEntry :: rest =>
      let item := match rest with
        | .blockEntry :: _ => some (absent, n, rest)
        | .blockEnd :: _ => some (absent, n, rest)
        | _ => readNode steps true false n rest
      item.bind fun (item, n, rest) =>
        (readBlockItems steps n rest).map fun (items, n, rest) => (item :: items, n, rest)
    | _ => none

/-- The items of a sequence at the column of its mapping, up to what is no entry. -/
def readFlatItems : Nat → Names → List Token → Composed (List Node)
  | 0, _, _ => none
  | steps + 1, n, tokens =>
    match tokens with
    | .blockEntry :: rest =>
      let item :=
        if rest.head?.any fun t => t = .blockEntry || endsBlockItem t then some (absent, n, rest)
        else readNode steps true false n rest
      item.bind fun (item, n, rest) =>
        (readFlatItems steps n rest).map fun (items, n, rest) => (item :: items, n, rest)
    | _ => some ([], n, tokens)

/-- The keys and values of a block mapping, one after the other, up to its end. -/
def readBlockPairs : Nat → Names → List Token → Composed (List Node)
  | 0, _, _ => none
  | steps + 1, n, tokens =>
    match tokens with
    | .blockEnd :: rest => some ([], n, rest)
    | .key :: rest =>
      let key := if rest.head?.any endsBlockItem then some (absent, n, rest)
        else readNode steps true true n rest
      key.bind fun (key, n, rest) => readBlockValue steps key n rest
    | .value :: _ => readBlockValue steps absent n tokens
    | _ => none

/-- The value of a key in a block mapping, and what follows it. -/
def readBlockValue : Nat → Node → Names → List Token → Composed (List Node)
  | 0, _, _, _ => none
  | steps + 1, key, n, tokens =>
    let value := match tokens with
      | .value :: rest =>
        if rest.head?.any endsBlockItem then some (absent, n, rest)
        else readNode steps true true n rest
      | _ => some (absent, n, tokens)
    value.bind fun (value, n, rest) =>
      (readBlockPairs steps n rest).map fun (items, n, rest) => (key :: value :: items, n, rest)

/-- The items of a sequence in brackets up to its end. -/
def readFlowItems : Nat → Bool → Names → List Token → Composed (List Node)
  | 0, _, _, _ => none
  | steps + 1, first, n, tokens =>
    let start? := match tokens with
      | .flowSequenceEnd :: _ => some tokens
      | .flowEntry :: rest => if first then some tokens else some rest
      | _ => if first then some tokens else none
    match start? with
    | none => none
    | some (.flowSequenceEnd :: rest) => some ([], n, rest)
    | some (.key :: rest) =>
      (readFlowPair steps n rest).bind fun (item, n, rest) =>
        (readFlowItems steps false n rest).map fun (items, n, rest) => (item :: items, n, rest)
    | some tokens =>
      (readNode steps false false n tokens).bind fun (item, n, rest) =>
        (readFlowItems steps false n rest).map fun (items, n, rest) => (item :: items, n, rest)

/-- A pair of its own in a sequence in brackets. -/
def readFlowPair : Nat → Names → List Token → Composed Node
  | 0, _, _ => none
  | steps + 1, n, tokens =>
    let key := match tokens with
      | .value :: rest => some (absent, n, rest)
      | .flowEntry :: rest => some (absent, n, rest)
      | .flowSequenceEnd :: rest => some (absent, n, rest)
      | _ => readNode steps false false n tokens
    key.bind fun (key, n, tokens) =>
      let value := match tokens with
        | .value :: rest =>
          if rest.head?.any (endsFlowItem .flowSequenceEnd) then some (absent, n, rest)
          else readNode steps false false n rest
        | _ => some (absent, n, tokens)
      value.map fun (value, n, rest) => (.mapping (Node.entriesOf [] [key, value]), n, rest)

/-- The keys and values of a mapping in brackets, one after the other, up to its end. -/
def readFlowPairs : Nat → Bool → Names → List Token → Composed (List Node)
  | 0, _, _, _ => none
  | steps + 1, first, n, tokens =>
    let start? := match tokens with
      | .flowMappingEnd :: _ => some tokens
      | .flowEntry :: rest => if first then some tokens else some rest
      | _ => if first then some tokens else none
    match start? with
    | none => none
    | some (.flowMappingEnd :: rest) => some ([], n, rest)
    | some (.key :: rest) =>
      let key :=
        if rest.head?.any fun t => t = .value || endsFlowItem .flowMappingEnd t then
          some (absent, n, rest)
        else readNode steps false false n rest
      key.bind fun (key, n, rest) => readFlowValue steps key n rest
    | some (.value :: rest) => readFlowValue steps absent n (.value :: rest)
    | some tokens =>
      (readNode steps false false n tokens).bind fun (key, n, rest) =>
        (readFlowPairs steps false n rest).map fun (items, n, rest) =>
          (key :: absent :: items, n, rest)

/-- The value of a key in a mapping in brackets, and what follows it. -/
def readFlowValue : Nat → Node → Names → List Token → Composed (List Node)
  | 0, _, _, _ => none
  | steps + 1, key, n, tokens =>
    let value := match tokens with
      | .value :: rest =>
        if rest.head?.any (endsFlowItem .flowMappingEnd) then some (absent, n, rest)
        else readNode steps false false n rest
      | _ => some (absent, n, tokens)
    value.bind fun (value, n, rest) =>
      (readFlowPairs steps false n rest).map fun (items, n, rest) =>
        (key :: value :: items, n, rest)

end

/-! ### Documents -/

/-- The directives before a document.  A version and each handle may be given once. -/
def readDirectives (versioned : Bool) (n : Names) : List Token → Option (Names × List Token)
  | .versionDirective :: rest => if versioned then none else readDirectives true n rest
  | .tagDirective handle address :: rest =>
    if (n.handles.lookup handle).isSome then none
    else readDirectives versioned { n with handles := (handle, address) :: n.handles } rest
  | tokens => some (n, tokens)

/-- Whether a token cannot be part of a document. -/
def endsDocument : Token → Bool
  | .versionDirective => true
  | .tagDirective .. => true
  | .documentStart => true
  | .documentEnd => true
  | _ => false

/-- Whether a token is a directive. -/
def isDirective : Token → Bool
  | .versionDirective => true
  | .tagDirective .. => true
  | _ => false

/-- The document that starts here.  `bare` says whether it may start without a mark. -/
def readDocument (bare : Bool) (steps : Nat) (n : Names) (tokens : List Token) : Composed Node :=
  if bare ∧ !tokens.head?.any endsDocument then readNode steps true false n tokens
  else match readDirectives false n tokens with
    | some (n, .documentStart :: rest) =>
      if rest.head?.all endsDocument then some (absent, n, rest)
      else readNode steps true false n rest
    | _ => none

/-- The documents from here on. -/
def readDocuments : Nat → Bool → Names → List Token → Option (List Node)
  | 0, _, _, _ => none
  | steps + 1, bare, n, tokens =>
    match tokens.dropWhile (· = .documentEnd) with
    | [] => some []
    | tokens =>
      (readDocument bare steps n tokens).bind fun (document, n, rest) =>
        let n := n.endDocument
        match rest with
        | .documentEnd :: rest => (readDocuments steps true n rest).map (document :: ·)
        | rest =>
          if rest.head?.any isDirective then none
          else (readDocuments steps false n rest).map (document :: ·)

/-- The documents of a text, if it has a reading. -/
def documents? (text : String) : Option (List Node) :=
  (tokens? text).bind fun tokens =>
    readDocuments (4 * tokens.length + 4) true Names.none tokens

end GemCourier.Yaml
