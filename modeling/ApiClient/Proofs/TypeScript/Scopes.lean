import ApiClient.Proofs.TypeScript.ExprTypes

/-!
# Names in functions

A function binds the names of its parameters, those inside a destructuring pattern among them. The
free names of an expression are the variables that it reads and does not bind itself. A function
can be run if each free name of its body is one that it binds or one of the module around it.
-/

namespace ApiClient.TypeScript

def Pattern.names : Pattern Expr → List String
  | .name s => [s]
  | .object bindings => bindings.map Binding.name

/-- The names that parameters bind, in order. -/
def boundNames (params : List (Param Expr)) : List String :=
  params.flatMap fun p ↦ p.pattern.names

def Function.bound (f : Function) : List String :=
  boundNames f.params

mutual

def Expr.free : Expr → List String
  | .ident name => [name]
  | .literal _ => []
  | .member object _ => object.free
  | .call callee _ args => callee.free ++ freeOfExprs args
  | .object entries => freeOfEntries entries
  | .template parts => freeOfParts parts
  | .and left right => left.free ++ right.free
  -- a parameter is in scope in the values that stand in for others as well
  | .arrow params body =>
    (freeOfParams params ++ body.free).filter fun name ↦ !(boundNames params).contains name

def freeOfExprs : List Expr → List String
  | [] => []
  | e :: es => e.free ++ freeOfExprs es

def freeOfEntries : List (Entry Expr) → List String
  | [] => []
  | .prop _ value :: rest => value.free ++ freeOfEntries rest
  | .spread value :: rest => value.free ++ freeOfEntries rest

def freeOfParts : List (TemplatePart Expr) → List String
  | [] => []
  | .text _ :: rest => freeOfParts rest
  | .hole e :: rest => e.free ++ freeOfParts rest

def freeOfBindings : List (Binding Expr) → List String
  | [] => []
  | ⟨_, _, fallback⟩ :: rest => freeOfFallback fallback ++ freeOfBindings rest

def freeOfFallback : Option Expr → List String
  | none => []
  | some e => e.free

def freeOfPattern : Pattern Expr → List String
  | .name _ => []
  | .object bindings => freeOfBindings bindings

def freeOfParams : List (Param Expr) → List String
  | [] => []
  | ⟨pattern, _, _, fallback⟩ :: rest =>
    freeOfPattern pattern ++ freeOfFallback fallback ++ freeOfParams rest

end

section

variable {x : String}

@[simp] theorem mem_freeOfExprs {es : List Expr} : x ∈ freeOfExprs es ↔ ∃ e ∈ es, x ∈ e.free := by
  induction es with
  | nil => simp [freeOfExprs]
  | cons e es ih => simp [freeOfExprs, ih]

theorem mem_freeOfEntries {entries : List (Entry Expr)} :
    x ∈ freeOfEntries entries ↔ ∃ entry ∈ entries, x ∈ entry.value.free := by
  induction entries with
  | nil => simp [freeOfEntries]
  | cons entry rest ih => cases entry <;> simp [freeOfEntries, Entry.value, ih]

theorem mem_freeOfParts {parts : List (TemplatePart Expr)} :
    x ∈ freeOfParts parts ↔ ∃ e, .hole e ∈ parts ∧ x ∈ e.free := by
  induction parts with
  | nil => simp [freeOfParts]
  | cons part rest ih => cases part <;> simp [freeOfParts, ih, or_and_right, exists_or]

end

namespace Expr

@[simp] theorem free_ident (name : String) : (ident name).free = [name] :=
  rfl

@[simp] theorem free_text (s : String) : (text s).free = [] := by
  rw [text, free]

@[simp] theorem free_path (object name : String) : (path object name).free = [object] := by
  rw [path, free, free_ident]

@[simp] theorem free_and (left right : Expr) : (and left right).free = left.free ++ right.free :=
  rfl

variable {x : String}

theorem mem_free_object {entries : List (Entry Expr)} :
    x ∈ (object entries).free ↔ ∃ entry ∈ entries, x ∈ entry.value.free := by
  rw [free, mem_freeOfEntries]

theorem mem_free_template {parts : List (TemplatePart Expr)} :
    x ∈ (template parts).free ↔ ∃ e, .hole e ∈ parts ∧ x ∈ e.free := by
  rw [free, mem_freeOfParts]

theorem mem_free_call {callee : Expr} {typeArgs : List Ty} {args : List Expr} :
    x ∈ (call callee typeArgs args).free ↔ x ∈ callee.free ∨ ∃ e ∈ args, x ∈ e.free := by
  rw [free, List.mem_append, mem_freeOfExprs]

theorem mem_free_apply {callee : Expr} {args : List Expr} :
    x ∈ (apply callee args).free ↔ x ∈ callee.free ∨ ∃ e ∈ args, x ∈ e.free :=
  mem_free_call

end Expr

@[simp] theorem boundNames_append (ps qs : List (Param Expr)) :
    boundNames (ps ++ qs) = boundNames ps ++ boundNames qs :=
  List.flatMap_append

end ApiClient.TypeScript
