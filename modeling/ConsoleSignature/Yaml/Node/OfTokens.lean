import ConsoleSignature.Yaml.Node
import ConsoleSignature.Yaml.Token.Stream

/-!
The tree of a list of tokens, which must be one document. A node may be empty where its indicator is
written and nothing follows. An anchor's number is how many different names came before it, so that
a name that is used again shares its number with the next new name.
-/
namespace ConsoleSignature.Yaml

structure TreeReader where
  tokens : List Token
  /-- The handles that directives define, with what each stands for. -/
  handles : List (List Char × Tag)
  names : List (List Char × Nat)
  anchored : List Anchored
  met : Nat
  events : Nat

namespace TreeReader

abbrev Action := StateT TreeReader Option

def peek : Action Token := do return (← get).tokens.headD .streamEnd

def skip : Action Unit := modify fun r => { r with tokens := r.tokens.drop 1 }

def count (n : Nat) : Action Unit := modify fun r => { r with events := r.events + n }

/-- Skips this token, which must come next. -/
def expect (t : Token) : Action Unit := do
  guard ((← peek) = t)
  skip

def emptyNode : Node := .scalar none .plain []

def takeEmpty : Action Node := do
  count 1
  return emptyNode

/-- The anchor and the tag of a node, in either order. -/
def takeProperties : Action (Option (List Char) × Option (List Char × Tag)) := do
  match ← peek with
  | .anchor name =>
    skip
    match ← peek with
    | .tag handle suffix =>
      skip
      return (some name, some (handle, suffix))
    | _ => return (some name, none)
  | .tag handle suffix =>
    skip
    match ← peek with
    | .anchor name =>
      skip
      return (some name, some (handle, suffix))
    | _ => return (none, some (handle, suffix))
  | _ => return (none, none)

def resolveTag (tag : Option (List Char × Tag)) : Action (Option Tag) := do
  match tag with
  | none => return none
  | some (handle, suffix) =>
    if handle.isEmpty then return some suffix
    else
      let start ← StateT.lift ((← get).handles.lookup handle)
      return some (start.append suffix)

/-- Gives an anchor its number, before the contents of its node are read. -/
def register (name : Option (List Char)) : Action (Option (Nat × Nat)) := do
  match name with
  | none => return none
  | some name =>
    let r ← get
    let number := r.names.length
    let names := (name, number) :: r.names.filter (·.1 != name)
    set { r with names, met := r.met + 1 }
    return some (r.met, number)

def keep (place : Option (Nat × Nat)) (node : Node) : Action Node := do
  match place with
  | none => return node
  | some (order, number) =>
    modify fun r => { r with anchored := ⟨order, number, node⟩ :: r.anchored }
    return node

mutual

/-- Reads a node. Block collections are refused inside flow collections, and only the key or value
of a block mapping may be a sequence that is not indented. -/
def takeNode : Nat → Bool → Bool → Action Node
  | 0, _, _ => failure
  | fuel + 1, block, indentless => do
    if let .alias name := ← peek then
      skip
      count 1
      let number ← StateT.lift ((← get).names.lookup name)
      return .alias number
    let (anchor, tag) ← takeProperties
    let tag ← resolveTag tag
    let place ← register anchor
    match ← peek with
    | .scalar style text =>
      skip
      count 1
      keep place (.scalar tag style text)
    | .flowSequenceStart =>
      skip
      count 2
      keep place (.sequence tag (← takeFlowItems fuel true))
    | .flowMappingStart =>
      skip
      count 2
      keep place (.mapping tag (← takeFlowFields fuel true))
    | t =>
      if indentless ∧ t = .blockEntry then do
        count 2
        keep place (.sequence tag (← takeIndentlessItems fuel))
      else if block ∧ t = .blockSequenceStart then do
        skip
        count 2
        keep place (.sequence tag (← takeBlockItems fuel))
      else if block ∧ t = .blockMappingStart then do
        skip
        count 2
        keep place (.mapping tag (← takeBlockFields fuel))
      else do
        guard (anchor.isSome || tag.isSome)
        count 1
        keep place (.scalar tag .plain [])

def takeBlockItems : Nat → Action (List Node)
  | 0 => failure
  | fuel + 1 => do
    match ← peek with
    | .blockEntry =>
      skip
      let t ← peek
      let item ← if t = .blockEntry ∨ t = .blockEnd then takeEmpty else takeNode fuel true false
      return item :: (← takeBlockItems fuel)
    | _ =>
      expect .blockEnd
      return []

def takeIndentlessItems : Nat → Action (List Node)
  | 0 => failure
  | fuel + 1 => do
    match ← peek with
    | .blockEntry =>
      skip
      let t ← peek
      let item ←
        if t = .blockEntry ∨ t = .key ∨ t = .value ∨ t = .blockEnd then takeEmpty
        else takeNode fuel true false
      return item :: (← takeIndentlessItems fuel)
    | _ => return []

/-- Reads the key or value of a block mapping after its indicator. -/
def takeBlockPart : Nat → Action Node
  | 0 => failure
  | fuel + 1 => do
    let t ← peek
    if t = .key ∨ t = .value ∨ t = .blockEnd then takeEmpty else takeNode fuel true true

def takeBlockFields : Nat → Action (List (Node × Node))
  | 0 => failure
  | fuel + 1 => do
    match ← peek with
    | .key =>
      skip
      let key ← takeBlockPart fuel
      let value ←
        if (← peek) = .value then do
          skip
          takeBlockPart fuel
        else takeEmpty
      return (key, value) :: (← takeBlockFields fuel)
    | _ =>
      expect .blockEnd
      return []

def takeFlowItems : Nat → Bool → Action (List Node)
  | 0, _ => failure
  | fuel + 1, first => do
    if (← peek) = .flowSequenceEnd then
      skip
      return []
    if !first then expect .flowEntry
    match ← peek with
    | .flowSequenceEnd =>
      skip
      return []
    | .key =>
      skip
      count 2
      let field ← takePair fuel
      return .mapping none [field] :: (← takeFlowItems fuel false)
    | _ =>
      let item ← takeNode fuel false false
      return item :: (← takeFlowItems fuel false)

/-- Reads a pair that stands in a flow sequence by itself. Where its key is empty the token after
the indicator is passed over. -/
def takePair : Nat → Action (Node × Node)
  | 0 => failure
  | fuel + 1 => do
    let t ← peek
    let key ←
      if t = .value ∨ t = .flowEntry ∨ t = .flowSequenceEnd then do
        skip
        takeEmpty
      else takeNode fuel false false
    if (← peek) = .value then
      skip
      let t ← peek
      if t = .flowEntry ∨ t = .flowSequenceEnd then return (key, ← takeEmpty)
      else return (key, ← takeNode fuel false false)
    else return (key, ← takeEmpty)

/-- Reads the key or value of a flow mapping after its indicator. -/
def takeFlowPart : Nat → Bool → Action Node
  | 0, _ => failure
  | fuel + 1, isKey => do
    let t ← peek
    if (isKey ∧ t = .value) ∨ t = .flowEntry ∨ t = .flowMappingEnd then takeEmpty
    else takeNode fuel false false

def takeFlowFields : Nat → Bool → Action (List (Node × Node))
  | 0, _ => failure
  | fuel + 1, first => do
    if (← peek) = .flowMappingEnd then
      skip
      return []
    if !first then expect .flowEntry
    match ← peek with
    | .flowMappingEnd =>
      skip
      return []
    | .key =>
      skip
      let key ← takeFlowPart fuel true
      let value ←
        if (← peek) = .value then do
          skip
          takeFlowPart fuel false
        else takeEmpty
      return (key, value) :: (← takeFlowFields fuel false)
    | _ =>
      let key ← takeNode fuel false false
      return (key, ← takeEmpty) :: (← takeFlowFields fuel false)

end

def defaultHandles : List (List Char × Tag) :=
  [(['!'], Tag.ofChars ['!']), (['!', '!'], Tag.core "")]

/-- Reads directives: one version at most, which must be 1.1 or 1.2, and one meaning for a handle.
-/
def takeDirectives : Nat → Bool → Action Unit
  | 0, _ => failure
  | fuel + 1, versioned => do
    match ← peek with
    | .versionDirective major minor =>
      guard (!versioned && major == 1 && (minor == 1 || minor == 2))
      skip
      takeDirectives fuel true
    | .tagDirective handle start =>
      guard (((← get).handles.lookup handle).isNone)
      skip
      modify fun r => { r with handles := (handle, start) :: r.handles }
      takeDirectives fuel versioned
    | _ => return

def takeMarks : Nat → Action Unit
  | 0 => failure
  | fuel + 1 => do
    if (← peek) = .documentEnd then
      skip
      takeMarks fuel

def isDirective (t : Token) : Bool :=
  match t with
  | .versionDirective _ _ | .tagDirective _ _ => true
  | _ => false

/-- Reads the one document of the stream. -/
def takeDocument (fuel : Nat) : Action (Option Node) := do
  let t ← peek
  if t = .streamEnd then return none
  let root ←
    if isDirective t ∨ t = .documentStart then do
      takeDirectives fuel false
      modify fun r => { r with handles := r.handles ++ defaultHandles }
      expect .documentStart
      let t ← peek
      if isDirective t ∨ t = .documentStart ∨ t = .documentEnd ∨ t = .streamEnd then takeEmpty
      else takeNode fuel true false
    else do
      modify fun r => { r with handles := defaultHandles }
      takeNode fuel true false
  takeMarks fuel
  expect .streamEnd
  return some root

end TreeReader

/-- The tree of the text, if that is well formed. -/
def Tree.ofText? (s : List Char) : Option Tree := do
  let tokens ← Token.ofText? s
  let fuel := 4 * tokens.length + 4
  let (root, r) ← (TreeReader.takeDocument fuel).run ⟨tokens, [], [], [], 0, 0⟩
  return ⟨root, r.anchored, r.events⟩

end ConsoleSignature.Yaml
