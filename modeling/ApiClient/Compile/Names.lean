import ApiClient.Table

/-!
# Allocating names

Two ways of telling apart things that want the same name. Types count how often a name was asked
for. Functions go on counting until they reach a name that is free.
-/

namespace ApiClient.Names

/-- How often each name was asked for. -/
abbrev Counts := Table Nat

/-- A name for a type: the wanted name when it is asked for the first time, and later the wanted
name with the count of requests. A name that was given out counts as asked for. -/
def allocate (wanted : String) (counts : Counts) : String × Counts :=
  match Table.get? wanted counts with
  | some n =>
    let name := wanted ++ toString (n + 1)
    (name, Table.put name 1 (Table.put wanted (n + 1) counts))
  | none => (wanted, Table.put wanted 1 counts)

/-- The name that stands for the `n`th request. -/
def numbered (wanted : String) (n : Nat) : String :=
  if n > 1 then wanted ++ toString n else wanted

/-- The first number from `n` on whose name is free, looked for at most `steps` times. -/
def firstFree (wanted : String) (counts : Counts) : Nat → Nat → Nat
  | 0, n => n
  | steps + 1, n =>
    if Table.has counts (numbered wanted n) then firstFree wanted counts steps (n + 1) else n

/-- A name for a function: the wanted name with the next number whose name is free. -/
def reserve (wanted : String) (counts : Counts) : String × Counts :=
  let n := firstFree wanted counts counts.length ((Table.get? wanted counts).getD 0 + 1)
  let name := numbered wanted n
  let counts := if n > 1 then Table.put name 1 counts else counts
  (name, Table.put wanted n counts)

/-- The names given for requests one after the other, where `give` answers one of them. -/
def giveAll (give : String → Counts → String × Counts) : List String → Counts → List String × Counts
  | [], counts => ([], counts)
  | wanted :: rest, counts =>
    let (name, counts) := give wanted counts
    let (names, counts) := giveAll give rest counts
    (name :: names, counts)

@[simp] theorem numbered_one (wanted : String) : numbered wanted 1 = wanted := rfl

theorem numbered_of_lt {n : Nat} (h : 1 < n) (wanted : String) :
    numbered wanted n = wanted ++ toString n :=
  if_pos h

section

variable (give : String → Counts → String × Counts) (counts : Counts)

@[simp] theorem giveAll_nil : giveAll give [] counts = ([], counts) := rfl

theorem giveAll_cons (wanted : String) (rest : List String) :
    giveAll give (wanted :: rest) counts =
      ((give wanted counts).1 :: (giveAll give rest (give wanted counts).2).1,
        (giveAll give rest (give wanted counts).2).2) := rfl

theorem giveAll_append (before after : List String) :
    giveAll give (before ++ after) counts =
      ((giveAll give before counts).1 ++ (giveAll give after (giveAll give before counts).2).1,
        (giveAll give after (giveAll give before counts).2).2) := by
  induction before generalizing counts with
  | nil => rfl
  | cons wanted rest ih => rw [List.cons_append, giveAll_cons, giveAll_cons, ih, List.cons_append]

end

end ApiClient.Names
