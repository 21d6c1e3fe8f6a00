import ApiClient.Compile.Context

/-!
# The marks in the closure of a schema

The closure of a schema are the schemas that are reached through its items or, if it has none,
through its properties and the members of its compositions, references included. It is scanned for
read-only and write-only schemas.

A reference that is met again on the way down counts for nothing, which ends the scan of a cycle. A
result that depends on this is kept only once the scan has come back to the reference it began with.
-/

namespace ApiClient

namespace Schema

def marks (s : Schema) : Flags := ⟨s.readOnly.getD false, s.writeOnly.getD false⟩

def scanned (s : Schema) : List (RefOr Schema) :=
  match s.items with
  | some c => [c]
  | none =>
    (s.properties.getD []).map (·.2) ++ s.allOf.getD [] ++ s.anyOf.getD [] ++ s.oneOf.getD []

theorem mem_getD_nil {α : Type} {o : Option (List α)} {a : α} (h : a ∈ o.getD []) :
    ∃ as, o = some as ∧ a ∈ as := by
  cases o with
  | none => simp at h
  | some as => exact ⟨as, rfl, h⟩

theorem sizeOf_lt_of_mem_scanned {s : Schema} {c : RefOr Schema} (h : c ∈ s.scanned) :
    sizeOf c < sizeOf s := by
  unfold scanned at h
  split at h
  · rename_i i hi
    have : c = i := by simpa using h
    exact this ▸ sizeOf_items hi
  · rcases List.mem_append.1 h with h | h
    · rcases List.mem_append.1 h with h | h
      · rcases List.mem_append.1 h with h | h
        · obtain ⟨⟨name, d⟩, hd, rfl⟩ := List.mem_map.1 h
          obtain ⟨ps, hps, hd⟩ := mem_getD_nil hd
          have := sizeOf_properties hps
          have := List.sizeOf_lt_of_mem hd
          simp at *
          omega
        · obtain ⟨cs, hcs, hc⟩ := mem_getD_nil h
          exact Nat.lt_trans (List.sizeOf_lt_of_mem hc) (sizeOf_allOf hcs)
      · obtain ⟨cs, hcs, hc⟩ := mem_getD_nil h
        exact Nat.lt_trans (List.sizeOf_lt_of_mem hc) (sizeOf_anyOf hcs)
    · obtain ⟨cs, hcs, hc⟩ := mem_getD_nil h
      exact Nat.lt_trans (List.sizeOf_lt_of_mem hc) (sizeOf_oneOf hcs)

/-- The marks of a schema and of the parts that stand in it, references left aside. -/
def inlineMarks (s : Schema) : Flags :=
  s.scanned.attach.foldl (fun flags ⟨c, _⟩ =>
    match c with
    | .ref _ => flags
    | .inline t => flags.join (inlineMarks t)) s.marks
termination_by sizeOf s
decreasing_by
  rename_i h
  have := sizeOf_lt_of_mem_scanned h
  simp at this
  omega

end Schema

structure Walk where
  /-- The references on the way down. -/
  path : List String := []
  /-- How often a reference was met again. -/
  cuts : Nat := 0
  /-- The results that hold wherever the scan began. -/
  known : Table Flags

abbrev Scan := ExceptT CompileError (StateM Walk)

mutual

/-- Scans a schema; `follow` scans what a reference points to. -/
def Schema.scan (follow : String → Scan Flags) (s : Schema) : Scan Flags :=
  scanParts follow s s.scanned (fun _ h => Schema.sizeOf_lt_of_mem_scanned h) s.marks
termination_by (sizeOf s, s.scanned.length + 1)

/-- Scans parts of a schema until both marks are found. -/
def scanParts (follow : String → Scan Flags) (s : Schema) (parts : List (RefOr Schema))
    (small : ∀ c ∈ parts, sizeOf c < sizeOf s) (flags : Flags) : Scan Flags :=
  match parts with
  | [] => pure flags
  | .ref path :: rest =>
    if flags.both then pure flags else do
      let more ← follow path
      scanParts follow s rest (fun c h => small c (List.mem_cons_of_mem _ h)) (flags.join more)
  | .inline t :: rest =>
    if flags.both then pure flags else do
      let more ← t.scan follow
      scanParts follow s rest (fun c h => small c (List.mem_cons_of_mem _ h)) (flags.join more)
termination_by (sizeOf s, parts.length)
decreasing_by
  · simp [Prod.lex_def]
  · have := small (.inline t) List.mem_cons_self
    simp at this
    exact Prod.Lex.left _ _ (by omega)
  · simp [Prod.lex_def]

end

/-- Scans what a reference points to, through at most `hops` references. -/
def scanRef (snapshot : Snapshot) : Nat → String → Scan Flags
  | 0, _ => pure .none
  | hops + 1, path => do
    match Table.get? path (← get).known with
    | some flags => return flags
    | none =>
      if (← get).path.contains path then
        modify fun walk => { walk with cuts := walk.cuts + 1 }
        return .none
      let cuts := (← get).cuts
      modify fun walk => { walk with path := path :: walk.path }
      match snapshot.resolve Schema.ofNode path with
      | .error e => throw (.reference e)
      | .ok target =>
        let flags ← target.scan (scanRef snapshot hops)
        modify fun walk => { walk with path := walk.path.erase path }
        let walk ← get
        if walk.cuts = cuts || walk.path.isEmpty then
          set { walk with known := Table.put path flags walk.known }
        return flags

/-- How many references a scan can go down before it meets one again. -/
def Snapshot.scanHops (snapshot : Snapshot) : Nat := snapshot.size + 2

/-- Runs a scan from the results known so far, and keeps those it adds. -/
def Build.scan (scan : Scan Flags) : Build Flags := do
  let ctx ← get
  match scan.run { known := ctx.flags } with
  | (result, walk) =>
    set { ctx with flags := walk.known }
    match result with
    | .ok flags => return flags
    | .error e => throw e

def Env.closureMarks (env : Env) (s : Schema) : Build Flags :=
  if env.options.singleMode then pure .none
  else Build.scan (s.scan (scanRef env.snapshot env.snapshot.scanHops))

def Env.nodeMarks (env : Env) : RefOr Schema → Build Flags
  | .inline s => env.closureMarks s
  | .ref path =>
    if env.options.singleMode then pure .none
    else Build.scan (scanRef env.snapshot env.snapshot.scanHops path)

/-- The marks of a property, references left aside. -/
def Env.ownMarks (env : Env) (node : RefOr Schema) : Flags :=
  if env.options.singleMode then .none
  else match node with
    | .inline s => s.inlineMarks
    | .ref _ => .none

end ApiClient
