import ClassCompiler.Yaml.Lexer
import ClassCompiler.Yaml.Node

namespace ClassCompiler.Yaml

/-- An anchor: its name, the token it stands at, and its node once that is complete. -/
structure Anchor where
  name : String
  token : Nat
  node : Option Node

/-- The tokens, the anchors in scope, latest first, and the tag handles. -/
structure Reading where
  lexer : Lexer
  anchors : List Anchor := []
  handles : List (String × String) := []

/-- Reads tokens; nothing is read beyond an error. -/
abbrev Reader := StateT Reading (Except Error)

namespace Reader

/-- The next token. After the last one the stream ends over and over. -/
def peek : Reader Token := fun ⟨lexer, anchors, handles⟩ =>
  match lexer.next with
  | .error e => .error e
  | .ok (t, lexer) => .ok (t, ⟨lexer, anchors, handles⟩)

def skip : Reader Unit := fun ⟨lexer, anchors, handles⟩ =>
  .ok ((), ⟨{ lexer with taken := lexer.taken + 1 }, anchors, handles⟩)

/-- Passes the next token and gives the one after it. -/
def skipAndPeek : Reader Token := do
  skip
  peek

def fail {α : Type} (p : Problem) (context found : Mark) : Reader α := throw (nodeError p context found)

def emptyAt (m : Mark) : Node := Node.empty (m.line + 1) (m.column + 1)

/-- The anchor and tag in front of a node, the place of the first of them or of the node. -/
structure Properties where
  start : Mark
  anchor : Option (String × Nat) := none
  tag : String := ""

def expandTag (start mark : Mark) (handle suffix : String) : Reader String := do
  if handle.isEmpty then return suffix
  match (← get).handles.find? (·.1 = handle) with
  | some (_, expansion) =>
    let tag := expansion ++ suffix
    if tag.isEmpty then fail .undefinedHandle start mark else return tag
  | none => fail .undefinedHandle start mark

def properties : Reader Properties := do
  let t ← peek
  let position := (← get).lexer.taken
  match t.kind with
  | .anchor name =>
    let after ← skipAndPeek
    match after.kind with
    | .tag handle suffix =>
      let _ ← skipAndPeek
      return { start := t.start, anchor := some (name, position), tag := ← expandTag t.start after.start handle suffix }
    | _ => return { start := t.start, anchor := some (name, position) }
  | .tag handle suffix =>
    let after ← skipAndPeek
    match after.kind with
    | .anchor name =>
      let _ ← skipAndPeek
      return { start := t.start, anchor := some (name, position), tag := ← expandTag t.start t.start handle suffix }
    | _ => return { start := t.start, tag := ← expandTag t.start t.start handle suffix }
  | _ => return { start := t.start }

def declare (p : Properties) : Reader Unit :=
  match p.anchor with
  | some (name, token) => modify fun s => { s with anchors := ⟨name, token, none⟩ :: s.anchors }
  | none => pure ()

def complete (p : Properties) (n : Node) : Reader Unit :=
  match p.anchor with
  | some (_, token) => modify fun s => { s with
      anchors := s.anchors.map fun a => if a.token = token then { a with node := some n } else a }
  | none => pure ()

def isUntagged (tag : String) : Bool := tag.isEmpty || tag = "!"

def scalarNode (p : Properties) (text : String) (style : Style) : Node :=
  let octets := Octets.ofUnicode text
  let tag :=
    if !isUntagged p.tag then Octets.ofUnicode (shortTag p.tag)
    else if style ≠ .plain then "!!str"
    else if text = "<<" then "!!merge"
    else (resolve true octets).tag
  { kind := .scalar, tag, style, text := octets, line := p.start.line + 1, column := p.start.column + 1 }

def collectionNode (p : Properties) (kind : Kind) (children : List Node) : Node :=
  let tag :=
    if !isUntagged p.tag then Octets.ofUnicode (shortTag p.tag)
    else if kind = .sequence then "!!seq" else "!!map"
  { kind, tag, line := p.start.line + 1, column := p.start.column + 1, children }

def reference (name : String) (start : Mark) : Reader Node := do
  match (← get).anchors.find? (·.name = name) with
  | none => throw { problem := .unknownAnchor name }
  -- Inside its own node an anchor has no node yet.
  | some a => return {
      kind := .reference, tag := "", text := Octets.ofUnicode name
      line := start.line + 1, column := start.column + 1, children := a.node.toList }

def endsEntry : TokenKind → Bool
  | .blockEntry => true
  | .blockEnd => true
  | _ => false

def endsIndentlessEntry : TokenKind → Bool
  | .blockEntry => true
  | .key => true
  | .value => true
  | .blockEnd => true
  | _ => false

def endsPair : TokenKind → Bool
  | .key => true
  | .value => true
  | .blockEnd => true
  | _ => false

mutual

/-- A node. In block context block collections are allowed, and after a key also a sequence that is
not indented. -/
def node (block indentless : Bool) : (fuel : Nat) → Reader Node
  | 0 => fail .nodeContent {} {}
  | fuel + 1 => do
    let t ← peek
    match t.kind with
    | .reference name =>
      skip
      reference name t.start
    | _ =>
      -- What stands behind the properties is the node itself.
      let p ← properties
      let t ← peek
      let collection (kind : Kind) (items : Reader (List Node)) : Reader Node := do
        declare p
        let n := collectionNode p kind (← items)
        complete p n
        return n
      match t.kind with
      | .blockEntry =>
        if indentless then collection .sequence (indentlessItems fuel)
        else content p t
      | .scalar text style =>
        skip
        declare p
        let n := scalarNode p text style
        complete p n
        return n
      | .flowSequenceStart =>
        skip
        collection .sequence (flowItems t.start true fuel)
      | .flowMappingStart =>
        skip
        collection .mapping (flowPairs t.start true fuel)
      | .blockSequenceStart =>
        if block then do
          skip
          collection .sequence (blockItems t.start fuel)
        else content p t
      | .blockMappingStart =>
        if block then do
          skip
          collection .mapping (blockPairs t.start fuel)
        else content p t
      | _ => content p t
where
  /-- A node with properties and nothing else is an empty scalar. -/
  content (p : Properties) (t : Token) : Reader Node := do
    if p.anchor.isSome || !p.tag.isEmpty then
      declare p
      let n := scalarNode p "" .plain
      complete p n
      return n
    else fail .nodeContent p.start t.start

/-- The items of a block sequence after its start. -/
def blockItems (start : Mark) : (fuel : Nat) → Reader (List Node)
  | 0 => fail .dashExpected {} {}
  | fuel + 1 => do
    let t ← peek
    match t.kind with
    | .blockEntry =>
      let after ← skipAndPeek
      let item ← if endsEntry after.kind then pure (emptyAt t.stop) else node true false fuel
      return item :: (← blockItems start fuel)
    | .blockEnd =>
      skip
      return []
    | _ => fail .dashExpected start t.start

def indentlessItems : (fuel : Nat) → Reader (List Node)
  | 0 => fail .dashExpected {} {}
  | fuel + 1 => do
    let t ← peek
    match t.kind with
    | .blockEntry =>
      let after ← skipAndPeek
      let item ← if endsIndentlessEntry after.kind then pure (emptyAt t.stop) else node true false fuel
      return item :: (← indentlessItems fuel)
    | _ => return []

/-- The keys and values of a block mapping after its start. -/
def blockPairs (start : Mark) : (fuel : Nat) → Reader (List Node)
  | 0 => fail .keyExpected {} {}
  | fuel + 1 => do
    let t ← peek
    match t.kind with
    | .key =>
      let after ← skipAndPeek
      let key ← if endsPair after.kind then pure (emptyAt t.stop) else node true true fuel
      let value ← blockValue fuel
      return key :: value :: (← blockPairs start fuel)
    | .blockEnd =>
      skip
      return []
    | _ => fail .keyExpected start t.start

def blockValue : (fuel : Nat) → Reader Node
  | 0 => fail .keyExpected {} {}
  | fuel + 1 => do
    let t ← peek
    match t.kind with
    | .value =>
      let after ← skipAndPeek
      if endsPair after.kind then return emptyAt t.stop else node true true fuel
    | _ => return emptyAt t.start

/-- The items of a flow sequence after its bracket. An item may be a single pair. -/
def flowItems (start : Mark) (first : Bool) : (fuel : Nat) → Reader (List Node)
  | 0 => fail .sequenceSeparator {} {}
  | fuel + 1 => do
    let t ← peek
    if t.kind = .flowSequenceEnd then
      skip
      return []
    else do
      let t ← if first then pure t
        else if t.kind = .flowEntry then skipAndPeek
        else fail .sequenceSeparator start t.start
      match t.kind with
      | .flowSequenceEnd =>
        skip
        return []
      | .key =>
        skip
        let pair ← flowPair fuel
        let item := collectionNode { start := t.start } .mapping pair
        return item :: (← flowItems start false fuel)
      | _ =>
        let item ← node false false fuel
        return item :: (← flowItems start false fuel)

/-- The key and the value of a single pair in a flow sequence. -/
def flowPair : (fuel : Nat) → Reader (List Node)
  | 0 => fail .sequenceSeparator {} {}
  | fuel + 1 => do
    let t ← peek
    let key ← match t.kind with
      | .value | .flowEntry | .flowSequenceEnd => do
        skip
        pure (emptyAt t.stop)
      | _ => node false false fuel
    let t ← peek
    match t.kind with
    | .value =>
      let after ← skipAndPeek
      match after.kind with
      | .flowEntry | .flowSequenceEnd => return [key, emptyAt t.start]
      | _ => return [key, ← node false false fuel]
    | _ => return [key, emptyAt t.start]

/-- The keys and values of a flow mapping after its brace. A key may lack its value. -/
def flowPairs (start : Mark) (first : Bool) : (fuel : Nat) → Reader (List Node)
  | 0 => fail .mappingSeparator {} {}
  | fuel + 1 => do
    let t ← peek
    if t.kind = .flowMappingEnd then
      skip
      return []
    else do
      let t ← if first then pure t
        else if t.kind = .flowEntry then skipAndPeek
        else fail .mappingSeparator start t.start
      match t.kind with
      | .flowMappingEnd =>
        skip
        return []
      | .key =>
        let t ← skipAndPeek
        let key ← match t.kind with
          | .value | .flowEntry | .flowMappingEnd => pure (emptyAt t.start)
          | _ => node false false fuel
        let value ← flowValue fuel
        return key :: value :: (← flowPairs start false fuel)
      | _ =>
        let key ← node false false fuel
        let t ← peek
        return key :: emptyAt t.start :: (← flowPairs start false fuel)

def flowValue : (fuel : Nat) → Reader Node
  | 0 => fail .mappingSeparator {} {}
  | fuel + 1 => do
    let t ← peek
    match t.kind with
    | .value =>
      let after ← skipAndPeek
      match after.kind with
      | .flowEntry | .flowMappingEnd => return emptyAt after.start
      | _ => node false false fuel
    | _ => return emptyAt t.start

end

def directives : (fuel : Nat) → (version : Bool) → List (String × String) → Reader (List (String × String))
  | 0, _, handles => return handles
  | fuel + 1, version, handles => do
    let t ← peek
    match t.kind with
    | .versionDirective major minor =>
      if version then fail .duplicateVersion t.start t.start
      else if major ≠ 1 || minor ≠ 1 then fail .incompatibleVersion t.start t.start
      else
        skip
        directives fuel true handles
    | .tagDirective handle expansion =>
      if handles.any (·.1 = handle) then fail .duplicateTag t.start t.start
      else
        skip
        directives fuel version (handles ++ [(handle, expansion)])
    | _ => return handles

def standardHandles : List (String × String) := [("!", "!"), ("!!", longTag)]

def setHandles (own : List (String × String)) : Reader Unit :=
  modify fun s => { s with handles := own ++ standardHandles }

/-- The root node of the first document, if the text has one. -/
def document (fuel : Nat) : Reader (Option Node) := do
  -- The first token is the start of the stream. What follows the root is looked at, but only for errors.
  let _ ← peek
  let t ← skipAndPeek
  match t.kind with
  | .streamEnd => return none
  | .versionDirective _ _ | .tagDirective _ _ | .documentStart => do
    setHandles (← directives fuel false [])
    let t ← peek
    if t.kind ≠ .documentStart then fail .documentStart t.start t.start
    else
      let t ← skipAndPeek
      let root ← match t.kind with
        | .versionDirective _ _ | .tagDirective _ _ | .documentStart | .documentEnd | .streamEnd =>
          pure (emptyAt t.start)
        | _ => node true false fuel
      let _ ← peek
      return some root
  | _ => do
    setHandles []
    let root ← node true false fuel
    let _ ← peek
    return some root

end Reader

/-- The root node of the first document of a text, if there is one. -/
def readDocument (text : List Char) : Except Error (Option Node) :=
  let lexer := Lexer.ofText text
  (Reader.document (8 * lexer.cursor.size + 32)).run' { lexer }

end ClassCompiler.Yaml
