import ApiClient.Tree.CoreSchema

/-!
# Reading a tree

The steps from which every reader of a tree is built. A reader names the fields of a record and says
for each what is done with its node; the order of the faults follows from walking the tree.

A step that hands a part of a node to a reader also hands over that the part is smaller, so that
readers of recursive records can be defined by recursion.

A text of a few lines can stand for a huge tree if nodes stand in several places. What bounds the
work is the number of steps to such nodes, so reading counts them.
-/

namespace ApiClient

/-- What happens when a field of a record is missing. -/
inductive Presence where
  /-- The record cannot be read. -/
  | required
  /-- The field is absent; a record written as a list still has to name it. -/
  | optional
  | defaulted
deriving DecidableEq

structure Field where
  name : String
  presence : Presence
  /-- A second name by which the field is known. -/
  otherName : Option String := none

/-- A step of reading. The state says how many steps to nodes that stand elsewhere are left. -/
abbrev Read := StateT Nat (Except Fault)

/-- What comes of reading if so many steps to nodes that stand elsewhere may be made. -/
def Read.result {α : Type} (reading : Read α) (steps : Nat := 0) : Except Fault α :=
  reading.run' steps

namespace Node

variable {α : Type}

/-- Makes steps to a node that stands elsewhere, if so many are left. -/
def step (count : Nat := 1) : Read Unit := do
  let left ← get
  if left < count then throw .mismatch
  set (left - count)

/-- Makes the steps to the place where a node stands. -/
def reach (node : Node) : Read Unit := step node.distance

def text (node : Node) : Read String := do
  node.reach
  match node.bare with
  | .scalar (.str s) => return s
  | .scalar (.plain s _) => return s
  | .scalar (.quoted s _ _) => return s
  | .bad fault _ => throw fault
  | _ => throw .mismatch

def flag (node : Node) : Read Bool := do
  node.reach
  match node.bare with
  | .scalar (.bool b) => return b
  | .scalar (.plain s _) => (CoreSchema.bool? s).elim (throw .mismatch) pure
  | .scalar (.quoted s true (some .bool)) => (CoreSchema.bool? s).elim (throw .mismatch) pure
  | .bad fault _ => throw fault
  | _ => throw .mismatch

def isAbsent : Node → Except Fault Bool
  | .scalar .null => .ok true
  | .scalar (.plain s none) => .ok (s.isEmpty || CoreSchema.nullWords.contains s)
  | .scalar (.plain s (some .null)) =>
    if CoreSchema.nullWords.contains s then .ok true else .error .mismatch
  | .shared node => node.isAbsent
  | _ => .ok false

/-- A reading of a node, unless the node says that nothing is there. -/
def optional (node : Node) (reading : Read α) : Read (Option α) := do
  if ← node.isAbsent then
    node.reach
    return none
  else return some (← reading)

def raise : Option Fault → Except Fault Unit
  | none => .ok ()
  | some fault => .error fault

def listItems {bound : Nat} (read : (n : Node) → sizeOf n < bound → Read α) :
    (items : List Node) → (∀ n ∈ items, sizeOf n < bound) → Read (List α)
  | [], _ => return []
  | n :: rest, small => do
    let a ← read n (small n List.mem_cons_self)
    let as ← listItems read rest fun m hm => small m (List.mem_cons_of_mem n hm)
    return a :: as

def mapMembers {bound : Nat} (read : (n : Node) → sizeOf n < bound → Read α) :
    (members : List (Node × Node)) → (∀ m ∈ members, sizeOf m.2 < bound) →
      Read (List (String × α))
  | [], _ => return []
  | (k, v) :: rest, small => do
    let key ← k.text
    let a ← read v (small (k, v) List.mem_cons_self)
    let as ← mapMembers read rest fun m hm => small m (List.mem_cons_of_mem (k, v) hm)
    return (key, a) :: as

theorem sizeOf_lt_of_mem_seq {n m : Node} {items : List Node} {stop : Option Fault}
    {positional : Bool} (h : n.bare = .seq items stop positional) (hm : m ∈ items) :
    sizeOf m < sizeOf n := by
  have := sizeOf_bare_le n
  have := List.sizeOf_lt_of_mem hm
  simp_all
  omega

theorem sizeOf_lt_of_mem_map {n : Node} {m : Node × Node} {members : List (Node × Node)}
    {stop : Option Fault} (h : n.bare = .map members stop) (hm : m ∈ members) :
    sizeOf m.2 < sizeOf n := by
  have := sizeOf_bare_le n
  have := List.sizeOf_lt_of_mem hm
  obtain ⟨a, b⟩ := m
  simp_all
  omega

/-- Reads a list. Where a list is expected, text without characters is an empty one. -/
def list (node : Node) (read : (n : Node) → sizeOf n < sizeOf node → Read α) :
    Read (List α) := do
  node.reach
  match h : node.bare with
  | .seq items stop _ =>
    let as ← listItems read items fun _ hm => sizeOf_lt_of_mem_seq h hm
    raise stop
    return as
  | .scalar (.plain "" _) => return []
  | .bad fault _ => throw fault
  | _ => throw .mismatch

/-- Reads a map into a table. Where a map is expected, text without characters is an empty one. -/
def table (node : Node) (read : (n : Node) → sizeOf n < sizeOf node → Read α) :
    Read (Table α) := do
  node.reach
  match h : node.bare with
  | .map members stop =>
    let as ← mapMembers read members fun _ hm => sizeOf_lt_of_mem_map h hm
    raise stop
    return Table.ofPairs as
  | .scalar (.plain "" _) => return []
  | .bad fault _ => throw fault
  | _ => throw .mismatch

/-- The field that a key stands for, if it stands for one. A number as a key counts the fields. -/
def fieldOf (fields : List Field) : Node → Read (Option Field)
  | .scalar (.num (.int n)) => if n < 0 then throw .mismatch else return fields[n.toNat]?
  | key => do
    let name ← key.text
    return fields.find? fun field => field.name == name || field.otherName == some name

/-- Reads the members of a record in order; `seen` holds the names of the fields met so far. -/
def recordMembers {bound : Nat} (fields : List Field)
    (set : String → (n : Node) → sizeOf n < bound → α → Read α) :
    (members : List (Node × Node)) → (∀ m ∈ members, sizeOf m.2 < bound) → List String → α →
      Read (List String × α)
  | [], _, seen, a => return (seen, a)
  | (k, v) :: rest, small, seen, a => do
    let more := fun m hm => small m (List.mem_cons_of_mem (k, v) hm)
    match ← fieldOf fields k with
    | none =>
      raise v.skip
      recordMembers fields set rest more seen a
    | some field =>
      if seen.contains field.name then throw .mismatch
      let a ← set field.name v (small (k, v) List.mem_cons_self) a
      recordMembers fields set rest more (field.name :: seen) a

/-- Reads a record that is written as the list of its fields. -/
def recordItems {bound : Nat} (stop : Option Fault)
    (set : String → (n : Node) → sizeOf n < bound → α → Read α) :
    (fields : List Field) → (items : List Node) → (∀ n ∈ items, sizeOf n < bound) → α →
      Read α
  | [], [], _, a => do
    raise stop
    return a
  | [], _ :: _, _, _ => throw .malformed
  | field :: fields, [], small, a => do
    raise stop
    if field.presence = .defaulted then recordItems stop set fields [] small a
    else throw .mismatch
  | field :: fields, n :: rest, small, a => do
    let a ← set field.name n (small n List.mem_cons_self) a
    recordItems stop set fields rest (fun m hm => small m (List.mem_cons_of_mem n hm)) a

/-- Reads a record: a map of its fields in any order, or where the notation allows it the list of
them in order. A field that comes twice, and one that is required and does not come, are mismatches.
-/
def record (fields : List Field) (node : Node) (start : α)
    (set : String → (n : Node) → sizeOf n < sizeOf node → α → Read α) : Read α := do
  let finish (seen : List String) (a : α) : Read α :=
    if fields.all fun field => field.presence != .required || seen.contains field.name then pure a
    else throw .mismatch
  node.reach
  match h : node.bare with
  | .map members stop =>
    let (seen, a) ←
      recordMembers fields set members (fun _ hm => sizeOf_lt_of_mem_map h hm) [] start
    raise stop
    finish seen a
  | .seq items stop true =>
    recordItems stop set fields items (fun _ hm => sizeOf_lt_of_mem_seq h hm) start
  | .scalar (.plain "" _) => finish [] start
  | .bad fault _ => throw fault
  | _ => throw .mismatch

/-- The position of a word among others, written as the word or as a map from it to null. -/
def word (words : List String) (node : Node) : Read String :=
  let known (key : Node) : Read String :=
    match key with
    | .scalar (.num (.int n)) =>
      if n < 0 then throw .mismatch else (words[n.toNat]?).elim (throw .mismatch) pure
    | key => do
      let name ← key.text
      if words.contains name then return name else throw .mismatch
  match node with
  | .map [(key, .scalar .null)] none => known key
  | .scalar (.str name) => known (.scalar (.str name))
  | _ => throw .mismatch

mutual

/-- Settles the types of all scalars and raises every fault in a tree. -/
def settled : Node → Read Node
  | .scalar s => do return .scalar (← s.typed)
  | .seq items stop _ => do
    let items ← settledItems items
    raise stop
    return .seq items none true
  | .map members stop => do
    let members ← settledMembers members
    raise stop
    return .map members none
  | .labelled _ => throw .mismatch
  | .shared node => do
    step
    settled node
  | .bad fault _ => throw fault

def settledItems : List Node → Read (List Node)
  | [] => return []
  | n :: rest => do
    let n ← settled n
    let rest ← settledItems rest
    return n :: rest

def settledMembers : List (Node × Node) → Read (List (Node × Node))
  | [] => return []
  | (k, v) :: rest => do
    let k ← settled k
    let v ← settled v
    let rest ← settledMembers rest
    return (k, v) :: rest

end

/-- The JSON value of a typed scalar. Numbers that JSON cannot write become null. -/
def scalarValue : Scalar → Except Fault Json.Value
  | .null => .ok .null
  | .bool b => .ok (.bool b)
  | .num n => .ok (.num n)
  | .negativeZero => .ok (.num (.int 0))
  | .nonFinite => .ok .null
  | .str s => .ok (.str s)
  | _ => .error .mismatch

mutual

def value : Node → Read Json.Value
  | .scalar s => do return ← scalarValue (← s.typed)
  | .seq items stop _ => do
    let items ← valueItems items
    raise stop
    return .arr items
  | .map members stop => do
    let members ← valueMembers members
    raise stop
    return .obj (Table.ofPairs members)
  | .labelled _ => throw .mismatch
  | .shared node => do
    step
    value node
  | .bad fault _ => throw fault

def valueItems : List Node → Read (List Json.Value)
  | [] => return []
  | n :: rest => do
    let v ← value n
    let vs ← valueItems rest
    return v :: vs

def valueMembers : List (Node × Node) → Read (List (String × Json.Value))
  | [] => return []
  | (k, v) :: rest => do
    let key ← k.text
    let v ← value v
    let vs ← valueMembers rest
    return (key, v) :: vs

end

end Node

end ApiClient
