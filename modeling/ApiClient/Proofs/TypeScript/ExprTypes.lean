import ApiClient.Proofs.TypeScript.Words
import ApiClient.TypeScript.Declaration

/-!
# The types in a function

The types that are written in an expression are the type arguments of its calls and the types of its
parameters. Those of a function are the types of its parameters and those in its body.
-/

namespace ApiClient.TypeScript

mutual

def Expr.types : Expr → List Ty
  | .ident _ | .literal _ => []
  | .member object _ => object.types
  | .call callee typeArgs args => callee.types ++ typeArgs ++ typesOfExprs args
  | .object entries => typesOfEntries entries
  | .template parts => typesOfParts parts
  | .and left right => left.types ++ right.types
  | .arrow params body => typesOfParams params ++ body.types

def typesOfExprs : List Expr → List Ty
  | [] => []
  | e :: es => e.types ++ typesOfExprs es

def typesOfEntries : List (Entry Expr) → List Ty
  | [] => []
  | .prop _ value :: rest => value.types ++ typesOfEntries rest
  | .spread value :: rest => value.types ++ typesOfEntries rest

def typesOfParts : List (TemplatePart Expr) → List Ty
  | [] => []
  | .text _ :: rest => typesOfParts rest
  | .hole e :: rest => e.types ++ typesOfParts rest

def typesOfBindings : List (Binding Expr) → List Ty
  | [] => []
  | ⟨_, _, fallback⟩ :: rest => typesOfFallback fallback ++ typesOfBindings rest

def typesOfFallback : Option Expr → List Ty
  | none => []
  | some e => e.types

def typesOfPattern : Pattern Expr → List Ty
  | .name _ => []
  | .object bindings => typesOfBindings bindings

def typesOfParams : List (Param Expr) → List Ty
  | [] => []
  | ⟨pattern, type, _, fallback⟩ :: rest =>
    typesOfPattern pattern ++ type.toList ++ typesOfFallback fallback ++ typesOfParams rest

end

def Function.types (f : Function) : List Ty :=
  typesOfParams f.params ++ f.body.types

@[simp] theorem typesOfParams_nil : typesOfParams [] = [] :=
  rfl

@[simp] theorem typesOfParams_cons (p : Param Expr) (ps : List (Param Expr)) :
    typesOfParams (p :: ps) = typesOfPattern p.pattern ++ p.type.toList ++
      typesOfFallback p.fallback ++ typesOfParams ps :=
  rfl

@[simp] theorem typesOfParams_append (ps qs : List (Param Expr)) :
    typesOfParams (ps ++ qs) = typesOfParams ps ++ typesOfParams qs := by
  induction ps with
  | nil => simp
  | cons p ps ih => simp [ih]

@[simp] theorem typesOfExprs_nil : typesOfExprs [] = [] :=
  rfl

@[simp] theorem typesOfExprs_cons (e : Expr) (es : List Expr) :
    typesOfExprs (e :: es) = e.types ++ typesOfExprs es :=
  rfl

theorem typesOfExprs_eq_nil {es : List Expr} (h : ∀ e ∈ es, e.types = []) :
    typesOfExprs es = [] := by
  induction es with
  | nil => simp
  | cons e es ih =>
    rw [typesOfExprs_cons, h e List.mem_cons_self, ih fun e he ↦ h e (List.mem_cons_of_mem _ he)]
    rfl

def Entry.value : Entry Expr → Expr
  | .prop _ value => value
  | .spread value => value

theorem typesOfEntries_eq_nil {entries : List (Entry Expr)}
    (h : ∀ entry ∈ entries, entry.value.types = []) : typesOfEntries entries = [] := by
  induction entries with
  | nil => rw [typesOfEntries]
  | cons entry rest ih =>
    have hentry := h entry List.mem_cons_self
    have hrest := ih fun e he ↦ h e (List.mem_cons_of_mem _ he)
    cases entry <;> rw [typesOfEntries, hrest, List.append_nil] <;> exact hentry

theorem typesOfParts_eq_nil {parts : List (TemplatePart Expr)}
    (h : ∀ e, .hole e ∈ parts → e.types = []) : typesOfParts parts = [] := by
  induction parts with
  | nil => rw [typesOfParts]
  | cons part rest ih =>
    have hrest := ih fun e he ↦ h e (List.mem_cons_of_mem _ he)
    cases part with
    | text s => rw [typesOfParts, hrest]
    | hole e =>
      rw [typesOfParts, hrest, h e List.mem_cons_self]
      rfl

namespace Expr

@[simp] theorem types_ident (name : String) : (ident name).types = [] :=
  rfl

@[simp] theorem types_text (s : String) : (text s).types = [] := by
  rw [text, types]

@[simp] theorem types_path (object name : String) : (path object name).types = [] := by
  rw [path, types, types_ident]

@[simp] theorem types_object (entries : List (Entry Expr)) :
    (object entries).types = typesOfEntries entries :=
  rfl

@[simp] theorem types_template (parts : List (TemplatePart Expr)) :
    (template parts).types = typesOfParts parts :=
  rfl

@[simp] theorem types_and (left right : Expr) :
    (and left right).types = left.types ++ right.types :=
  rfl

@[simp] theorem types_call (callee : Expr) (typeArgs : List Ty) (args : List Expr) :
    (call callee typeArgs args).types = callee.types ++ typeArgs ++ typesOfExprs args :=
  rfl

@[simp] theorem types_apply (callee : Expr) (args : List Expr) :
    (apply callee args).types = callee.types ++ typesOfExprs args := by
  rw [apply, types_call, List.append_nil]

end Expr

end ApiClient.TypeScript
