import ClassCompiler.Project.Basic
import ClassCompiler.Text.Base64
import ClassCompiler.Text.Quoted
import ClassCompiler.Yaml.Document

namespace ClassCompiler.Project

open Yaml (Node Resolved)

/-- What a file says about one setting that cannot be. -/
inductive Complaint where
  | repeatedKey (line : Nat) (key : String) (firstLine : Nat)
  | repeatedField (line : Nat) (field type : String)
  | unknownField (line : Nat) (field type : String)
  | misfit (line : Nat) (tag text type : String)
  deriving Repr, DecidableEq

def collectionTags : List String := ["!!seq", "!!map"]

/-- A text as it is shown in a complaint, cut after a few octets. -/
def excerpt (tag text : String) : String :=
  if collectionTags.contains tag then text
  else if 10 < text.length then " `" ++ (text.take 7).toString ++ "...`"
  else " `" ++ text ++ "`"

def Complaint.message : Complaint → String
  | .repeatedKey line key first =>
    "line " ++ toString line ++ ": mapping key " ++ Text.quote key ++ " already defined at line " ++ toString first
  | .repeatedField line field type =>
    "line " ++ toString line ++ ": field " ++ field ++ " already set in type " ++ type
  | .unknownField line field type =>
    "line " ++ toString line ++ ": field " ++ field ++ " not found in type " ++ type
  | .misfit line tag text type =>
    "line " ++ toString line ++ ": cannot unmarshal " ++ tag ++ excerpt tag text ++ " into " ++ type

inductive ReadError where
  | yaml (e : Yaml.Error)
  | wrongTag (found text tag : String)
  | octets
  | selfReference (name : String)
  | mergeSource
  | aliasing
  | unfit (complaints : List Complaint)
  | negative (path setting : String)
  deriving Repr

def ReadError.message : ReadError → String
  | .yaml e => e.message
  | .wrongTag found text tag => "yaml: cannot decode " ++ found ++ " `" ++ text ++ "` as a " ++ tag
  | .octets => "yaml: !!binary value contains invalid base64 data"
  | .selfReference name => "yaml: anchor '" ++ name ++ "' value contains itself"
  | .mergeSource => "yaml: map merge requires map or sequence of maps as the value"
  | .aliasing => "yaml: document contains excessive aliasing"
  | .unfit complaints => "yaml: unmarshal errors:\n  " ++ "\n  ".intercalate (complaints.map (·.message))
  | .negative path setting => path ++ ": " ++ setting ++ " must not be negative"

/-- How many nodes were read, how many of them by references, and the complaints, latest first. -/
structure Tally where
  nodes : Nat := 0
  repeated : Nat := 0
  complaints : List Complaint := []

namespace Tally

/-- Up to this many nodes, 99 of 100 may be repeated. -/
def fewNodes : Nat := 400000

/-- From this many nodes on, 10 of 100 may be repeated; in between the share falls evenly. -/
def manyNodes : Nat := 4000000

/-- The share of nodes that may be repeated, in parts of `100 * (manyNodes - fewNodes)`. -/
def allowance (nodes : Nat) : Nat :=
  99 * (manyNodes - fewNodes) - 89 * (min nodes manyNodes - fewNodes)

def isExcessive (t : Tally) : Bool :=
  100 < t.repeated && 1000 < t.nodes &&
    allowance t.nodes * t.nodes < 100 * (manyNodes - fewNodes) * t.repeated

end Tally

abbrev Reading := StateT Tally (Except ReadError)

def complain (c : Complaint) : Reading Unit := modify fun t => { t with complaints := c :: t.complaints }

def misfit (n : Node) (type : String) : Reading Unit := complain (.misfit n.line n.tag n.text type)

def count (isRepeated : Bool) : Reading Unit := do
  let t ← get
  let t := { t with nodes := t.nodes + 1, repeated := if isRepeated then t.repeated + 1 else t.repeated }
  if t.isExcessive then throw .aliasing else set t

/-- Counts a node and gives it, or the one it refers to and that this is repeated. -/
def arrive (isRepeated : Bool) (n : Node) : Reading (Bool × Node) := do
  count isRepeated
  match n.kind, n.children with
  | .reference, [t] =>
    count true
    return (true, t)
  | .reference, _ => throw (.selfReference n.text)
  | _, _ => return (isRepeated, n)

/-- The tags that say something about the text of a scalar. -/
def scalarTags : List String := ["!!null", "!!bool", "!!int", "!!float", "!!timestamp"]

def floatOfInt (n : Int) : Resolved :=
  .float { negative := n < 0, mantissa := n.natAbs, exponent := 0 }

/-- What a scalar says, and its text. A tag has to agree with the text, except that a whole number
of 64 bits may be tagged as a float; one tagged as octets is the string they spell, and one with a
foreign tag is a string. -/
def scalarValue (n : Node) : Reading (Resolved × String) :=
  if n.tag = "!!binary" then
    match Base64.decode? n.text with
    | some text => return (.text, text)
    | none => throw .octets
  else if !scalarTags.contains n.tag then return (.text, n.text)
  else
    let r := Yaml.resolve (n.tag = "!!timestamp") n.text
    if n.tag = r.tag then return (r, n.text)
    else match n.tag, r with
      | "!!float", .int v =>
        if v < Numeral.int64Bound then return (floatOfInt v, n.text)
        else throw (.wrongTag r.tag n.text n.tag)
      | _, _ => throw (.wrongTag r.tag n.text n.tag)

/-- The keys that are written alike, with their lines. -/
def repeatedKeys : List Node → List Complaint
  | [] => []
  | k :: ks =>
    (ks.filter fun j => j.kind = k.kind && j.text = k.text).map
      (fun j => .repeatedKey j.line j.text k.line) ++ repeatedKeys ks

def pairs : List Node → List (Node × Node)
  | k :: v :: rest => (k, v) :: pairs rest
  | _ => []

/-- Whether no two keys of a mapping are written alike; those that are, are complained about. -/
def checkKeys (n : Node) : Reading Bool := do
  let cs := repeatedKeys ((pairs n.children).map Prod.fst)
  cs.forM complain
  return cs.isEmpty

/-- Reads a scalar of some type; a null says nothing. -/
def scalar (type : String) (isRepeated : Bool) (n : Node) {α : Type}
    (ofValue : Resolved → String → Option α) : Reading (Option α) := do
  let (_, n) ← arrive isRepeated n
  match n.kind with
  | .scalar =>
    match ← scalarValue n with
    | (.null, _) => return none
    | (r, text) =>
      match ofValue r text with
      | some v => return some v
      | none =>
        misfit n type
        return none
  | .mapping =>
    if ← checkKeys n then misfit n type
    return none
  | _ =>
    misfit n type
    return none

def readText : (isRepeated : Bool) → Node → Reading (Option String) :=
  fun isRepeated n => scalar "string" isRepeated n fun _ text => some text

def wholeNumber? : Resolved → Option Int
  | .int v => if v < Numeral.int64Bound then some v else none
  | .float d => d.toInt64?
  | .infinity true => some (-Numeral.int64Bound)
  | _ => none

def readInt : (isRepeated : Bool) → Node → Reading (Option Int) :=
  fun isRepeated n => scalar "int" isRepeated n fun r _ => wholeNumber? r

def yesWords : List String := ["y", "Y", "yes", "Yes", "YES", "on", "On", "ON"]

def noWords : List String := ["n", "N", "no", "No", "NO", "off", "Off", "OFF"]

def truth? : Resolved → String → Option Bool
  | .bool b, _ => some b
  | .text, text =>
    if yesWords.contains text then some true
    else if noWords.contains text then some false
    else none
  | _, _ => none

def readBool : (isRepeated : Bool) → Node → Reading (Option Bool) :=
  fun isRepeated n => scalar "bool" isRepeated n truth?

/-- What a project file says; what it leaves out is zero or empty. -/
structure Given where
  entry : String := ""
  output : String := ""
  stack : Int := 0
  locals : Int := 0
  cache : String := ""
  color : Option Bool := none

/-- A part of a project file: its name in complaints, its fields, and how to read one of them. -/
structure Section where
  type : String
  fields : List String
  read : (isRepeated : Bool) → Given → (field : String) → Node → Reading Given

/-- Reads entries, but for merge keys. `seen` has the names that do not count any more if the
mapping gives its entries to another, and `done` the fields that were read. -/
def readFields (sec : Section) (isRepeated : Bool) :
    (seen : Option (List String)) → (done : List String) → Given → List (Node × Node) →
    Reading (Option (List String) × Given)
  | seen, _, g, [] => return (seen, g)
  | seen, done, g, (k, v) :: rest => do
    if Yaml.Node.isMerge k then readFields sec isRepeated seen done g rest
    else
      match ← readText isRepeated k with
      | none => readFields sec isRepeated seen done g rest
      | some name =>
        if (seen.getD []).contains name then readFields sec isRepeated seen done g rest
        else
          let seen := seen.map (name :: ·)
          if !sec.fields.contains name then
            complain (.unknownField k.line name sec.type)
            readFields sec isRepeated seen done g rest
          else if done.contains name then
            complain (.repeatedField k.line name sec.type)
            readFields sec isRepeated seen done g rest
          else
            let g ← sec.read isRepeated g name v
            readFields sec isRepeated seen (name :: done) g rest

/-- The names of keys, merge keys included, that entries taken from elsewhere must not have. -/
def keyNames (isRepeated : Bool) : List Node → Reading (List String)
  | [] => return []
  | k :: ks => do
    let (_, n) ← arrive isRepeated k
    let name ← match n.kind with
      | .scalar =>
        match ← scalarValue n with
        | (.text, text) => pure [text]
        | _ => pure []
      | _ => pure []
    return name ++ (← keyNames isRepeated ks)

def mergeSource? (children : List Node) : Option Node :=
  ((pairs children).find? fun (k, _) => k.isMerge).map Prod.snd

theorem snd_mem_of_mem_pairs {k v : Node} : ∀ {cs : List Node}, (k, v) ∈ pairs cs → v ∈ cs
  | [], h => by simp [pairs] at h
  | [_], h => by simp [pairs] at h
  | a :: b :: rest, h => by
    simp only [pairs, List.mem_cons, Prod.mk.injEq] at h
    rcases h with ⟨_, rfl⟩ | h
    · simp
    · have := snd_mem_of_mem_pairs h
      simp [this]

theorem mem_of_mergeSource? {cs : List Node} {v : Node} (h : mergeSource? cs = some v) : v ∈ cs := by
  simp only [mergeSource?, Option.map_eq_some_iff, Prod.exists, exists_eq_right] at h
  obtain ⟨k, hk⟩ := h
  exact snd_mem_of_mem_pairs (List.mem_of_find?_eq_some hk)

mutual

/-- Reads a mapping whose node is counted: its own entries, then those it takes from others. -/
def readMapping (sec : Section) (isRepeated : Bool) (seen : Option (List String)) (g : Given) (n : Node) :
    Reading (Option (List String) × Given) := do
  if !(← checkKeys n) then return (seen, g)
  else
    let (seen, g) ← readFields sec isRepeated seen [] g (pairs n.children)
    match h : mergeSource? n.children with
    | none => return (seen, g)
    | some v =>
      have : sizeOf v < sizeOf n := Node.sizeOf_lt_of_mem rfl (mem_of_mergeSource? h)
      match seen with
      | some names =>
        let (names, g) ← readMerged sec isRepeated names g v
        return (some names, g)
      | none =>
        let names ← keyNames isRepeated ((pairs n.children).map Prod.fst)
        let (_, g) ← readMerged sec isRepeated names g v
        return (none, g)
termination_by (sizeOf n, 0)

/-- Reads a mapping that gives its entries to another, or a reference to one. -/
def readGiving (sec : Section) (isRepeated : Bool) (seen : List String) (g : Given) (n : Node) :
    Reading (List String × Given) := do
  match n.kind, h : n.children with
  | .mapping, _ =>
    count isRepeated
    let (names, g) ← readMapping sec isRepeated (some seen) g n
    return (names.getD seen, g)
  | .reference, [t] =>
    have : sizeOf t < sizeOf n := Node.sizeOf_lt_of_mem h (by simp)
    if t.kind ≠ .mapping then throw .mergeSource
    else
      count isRepeated
      count true
      let (names, g) ← readMapping sec true (some seen) g t
      return (names.getD seen, g)
  | .reference, _ => throw (.selfReference n.text)
  | _, _ => throw .mergeSource
termination_by (sizeOf n, 1)

/-- Reads what stands under a merge key: a mapping, or several in order. -/
def readMerged (sec : Section) (isRepeated : Bool) (seen : List String) (g : Given) (n : Node) :
    Reading (List String × Given) :=
  match n.kind, h : n.children with
  | .sequence, items =>
    have : sizeOf items < sizeOf n := Node.sizeOf_children_lt h
    readEach sec isRepeated seen g items
  | _, _ => readGiving sec isRepeated seen g n
termination_by (sizeOf n, 2)

def readEach (sec : Section) (isRepeated : Bool) (seen : List String) (g : Given) (ns : List Node) :
    Reading (List String × Given) :=
  match ns with
  | [] => return (seen, g)
  | n :: rest => do
    let (seen, g) ← readGiving sec isRepeated seen g n
    readEach sec isRepeated seen g rest
termination_by (sizeOf ns, 0)

end

def readSection (sec : Section) (isRepeated : Bool) (g : Given) (n : Node) : Reading Given := do
  let (isRepeated, n) ← arrive isRepeated n
  match n.kind with
  | .scalar =>
    match ← scalarValue n with
    | (.null, _) => return g
    | _ =>
      misfit n sec.type
      return g
  | .mapping => return (← readMapping sec isRepeated none g n).2
  | _ =>
    misfit n sec.type
    return g

def limits : Section where
  type := "config.Limits"
  fields := ["stack", "locals"]
  read isRepeated g field v := do
    match field with
    | "stack" => return { g with stack := (← readInt isRepeated v).getD g.stack }
    | _ => return { g with locals := (← readInt isRepeated v).getD g.locals }

def settingsFile : Section where
  type := "config.Project"
  fields := ["entry", "output", "limits", "cache", "color"]
  read isRepeated g field v := do
    match field with
    | "entry" => return { g with entry := (← readText isRepeated v).getD g.entry }
    | "output" => return { g with output := (← readText isRepeated v).getD g.output }
    | "limits" => readSection limits isRepeated g v
    | "cache" => return { g with cache := (← readText isRepeated v).getD g.cache }
    | _ => return { g with color := ← readBool isRepeated v }

def Given.toProject (g : Given) : Project :=
  { entry := if g.entry.isEmpty then "Main" else g.entry
    output := if g.output.isEmpty then "." else g.output
    stack := if g.stack = 0 then 128 else g.stack
    locals := if g.locals = 0 then 128 else g.locals
    cache := g.cache
    color := g.color }

/-- Reads the root of a document, which is counted as well. -/
def ofRoot (n : Node) : Except ReadError Given := do
  let read : Reading Given := do
    count false
    readSection settingsFile false {} n
  let (g, t) ← read.run {}
  if t.complaints.isEmpty then return g else throw (.unfit t.complaints.reverse)

/-- Reads the text of a project file; `path` names it in errors. -/
def parse (text path : String) : Except ReadError Project := do
  let g ← match Yaml.readDocument text.toList with
    | .error e => .error (.yaml e)
    | .ok none => .ok {}
    | .ok (some n) => ofRoot n
  if g.stack < 0 then .error (.negative path "limits.stack")
  else if g.locals < 0 then .error (.negative path "limits.locals")
  else return g.toProject

end ClassCompiler.Project
