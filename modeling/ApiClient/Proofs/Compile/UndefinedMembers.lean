import ApiClient.Proofs.Compile.MirroredPlans

/-!
# Members that may be undefined

The option that lets optional members be undefined changes the types of these members and nothing
else: neither the names that are given out nor what is declared, entered or found wrong.
-/

namespace ApiClient.TypeScript

mutual

/-- The type in which the optional members of all objects may also be undefined. -/
def Ty.withUndefined : Ty → Ty
  | .keyword k => .keyword k
  | .literal l => .literal l
  | .named name => .named name
  | .array item => .array item.withUndefined
  | .tuple items => .tuple (typesWithUndefined items)
  | .union members => .union (typesWithUndefined members)
  | .inter members => .inter (typesWithUndefined members)
  | .object members index => .object (membersWithUndefined members) (indexWithUndefined index)

def typesWithUndefined : List Ty → List Ty
  | [] => []
  | t :: ts => t.withUndefined :: typesWithUndefined ts

def membersWithUndefined : List (Member Ty) → List (Member Ty)
  | [] => []
  | ⟨name, t, true⟩ :: ms =>
    ⟨name, .union [t.withUndefined, .keyword .undefined], true⟩ :: membersWithUndefined ms
  | ⟨name, t, false⟩ :: ms => ⟨name, t.withUndefined, false⟩ :: membersWithUndefined ms

def indexWithUndefined : Option Ty → Option Ty
  | none => none
  | some t => some t.withUndefined

end

def Member.withUndefined : Member Ty → Member Ty
  | ⟨name, t, true⟩ => ⟨name, .union [t.withUndefined, .keyword .undefined], true⟩
  | ⟨name, t, false⟩ => ⟨name, t.withUndefined, false⟩

theorem typesWithUndefined_eq (ts : List Ty) : typesWithUndefined ts = ts.map Ty.withUndefined := by
  induction ts with
  | nil => rfl
  | cons t ts ih => exact congrArg (t.withUndefined :: ·) ih

theorem membersWithUndefined_eq (ms : List (Member Ty)) :
    membersWithUndefined ms = ms.map Member.withUndefined := by
  induction ms with
  | nil => rfl
  | cons m ms ih =>
    rw [List.map_cons, ← ih]
    obtain ⟨name, t, _ | _⟩ := m <;> rfl

theorem indexWithUndefined_eq (index : Option Ty) :
    indexWithUndefined index = index.map Ty.withUndefined := by
  cases index <;> rfl

namespace Ty

@[simp] theorem withUndefined_keyword (k : Keyword) : (keyword k).withUndefined = keyword k :=
  rfl

@[simp] theorem withUndefined_literal (l : Literal) : (literal l).withUndefined = literal l :=
  rfl

@[simp] theorem withUndefined_named (name : String) :
    (named name).withUndefined = named name :=
  rfl

@[simp] theorem withUndefined_array (t : Ty) :
    (array t).withUndefined = array t.withUndefined :=
  rfl

@[simp] theorem withUndefined_tuple (ts : List Ty) :
    (tuple ts).withUndefined = tuple (ts.map withUndefined) :=
  congrArg tuple (typesWithUndefined_eq ts)

@[simp] theorem withUndefined_union (ts : List Ty) :
    (union ts).withUndefined = union (ts.map withUndefined) :=
  congrArg union (typesWithUndefined_eq ts)

@[simp] theorem withUndefined_inter (ts : List Ty) :
    (inter ts).withUndefined = inter (ts.map withUndefined) :=
  congrArg inter (typesWithUndefined_eq ts)

@[simp] theorem withUndefined_object (ms : List (Member Ty)) (index : Option Ty) :
    (object ms index).withUndefined =
      object (ms.map Member.withUndefined) (index.map withUndefined) :=
  congrArg₂ object (membersWithUndefined_eq ms) (indexWithUndefined_eq index)

end Ty

end ApiClient.TypeScript

namespace ApiClient

open TypeScript

/-- The same document and options, with or without optional members that may be undefined. -/
def Env.withUndefined (env : Env) (on : Bool) : Env :=
  env.under { env.options with withUndefined := on }

/-- A type without undefined members in the mirror of one with them. -/
def Mirror.ofUndefined : Mirror where
  type := Ty.withUndefined
  member := Member.withUndefined
  modes mode mode' := mode' = mode
  Inv := Context.EnumsNamed

theorem Mirror.lawful_ofUndefined (env : Env) : Mirror.ofUndefined.Lawful (env.withUndefined false)
    { env.options with withUndefined := true } where
  namedEnums := rfl
  singleMode := rfl
  keyword := Ty.withUndefined_keyword
  literal := Ty.withUndefined_literal
  named := Ty.withUndefined_named
  array := Ty.withUndefined_array
  tuple := Ty.withUndefined_tuple
  union := Ty.withUndefined_union
  inter := Ty.withUndefined_inter
  object := Ty.withUndefined_object
  required _ _ := rfl
  optional _ _ := rfl
  same _ := rfl
  keeps := by
    rintro mode _ node rfl
    rfl
  names := by
    rintro ctx mode _ key names - rfl -
    rfl
  enum := by
    intro ctx key entry hctx hentry
    obtain ⟨name, hname⟩ := hctx key entry hentry
    rw [hname]
    exact Ty.withUndefined_named name
  tables ctx ctx' _ henums _ hctx := by
    intro key entry hentry
    exact hctx key entry (henums ▸ hentry)
  register _ _ _ hctx _ := hctx
  enterEnum := by
    intro ctx key text name hctx other entry hentry
    rw [Table.get?_put] at hentry
    split at hentry
    · cases hentry
      exact ⟨name, rfl⟩
    · exact hctx other entry hentry
  declare _ _ _ _ _ _ _ hctx _ _ := hctx

/-- What the compiler is asked for. -/
inductive Ask where
  | schema (node : Option (RefOr Schema)) (name : Option String) (mode : Mode)
  | reference (path : String) (mode : Mode) (plain : Bool)

namespace Env

variable (env : Env)

def answer : Ask → Build Ty
  | .schema node name mode => env.schemaType node name mode
  | .reference path mode plain => env.referenceType path mode plain

/-- The answers to one question after the other, and the context in the end. A question is asked in
the context that the one before left behind, also if that one failed. -/
def answers : List Ask → Context → List (Except CompileError Ty) × Context
  | [], ctx => ([], ctx)
  | ask :: asks, ctx =>
    let first := (env.answer ask).outcome ctx
    let rest := answers asks first.2
    (first.1 :: rest.1, rest.2)

theorem answer_withUndefined (ask : Ask) :
    Mirror.ofUndefined.Step Ty.withUndefined ((env.withUndefined false).answer ask)
      ((env.withUndefined true).answer ask) := by
  have hM := Mirror.lawful_ofUndefined env
  cases ask with
  | schema node name mode => exact hM.schemaType rfl node name
  | reference path mode plain => exact hM.referenceType rfl path plain

theorem answers_withUndefined (asks : List Ask) {ctx : Context} (hctx : ctx.EnumsNamed) :
    (env.withUndefined true).answers asks (ctx.mapTypes Ty.withUndefined) =
      (((env.withUndefined false).answers asks ctx).1.map (Except.map Ty.withUndefined),
        ((env.withUndefined false).answers asks ctx).2.mapTypes Ty.withUndefined) := by
  induction asks generalizing ctx with
  | nil => rfl
  | cons ask asks ih =>
    obtain ⟨hout, hinv⟩ := env.answer_withUndefined ask ctx hctx
    have hrest := ih hinv
    have hnext : (((env.withUndefined true).answer ask).outcome
        (ctx.mapTypes Ty.withUndefined)).2 = (((env.withUndefined false).answer ask).outcome
          ctx).2.mapTypes Ty.withUndefined := congrArg Prod.snd hout
    rw [← hnext] at hrest
    have hlast := congrArg Prod.snd hrest
    apply Prod.ext
    · exact congrArg₂ List.cons (congrArg Prod.fst hout) (congrArg Prod.fst hrest)
    · exact hlast

end Env

/-- Whatever is asked for, one question after the other and also after errors, two compilations that
differ only in whether optional members may be undefined have the same errors and enter the same
names. Each type that is returned or declared is that without the option, with the type of every
optional member at any depth replaced by its union with undefined. -/
theorem undefined_members_only (env : Env) (asks : List Ask) :
    ((env.withUndefined true).answers asks {}).1 =
      ((env.withUndefined false).answers asks {}).1.map (Except.map Ty.withUndefined) ∧
    ((env.withUndefined true).answers asks {}).2 =
      { ((env.withUndefined false).answers asks {}).2 with
        typeDeclarations := ((env.withUndefined false).answers asks {}).2.typeDeclarations.map
          (Declaration.mapType Ty.withUndefined) } := by
  have hstart : Context.EnumsNamed {} := fun _ _ h ↦ (by cases h)
  have h := env.answers_withUndefined asks hstart
  exact ⟨congrArg Prod.fst h, congrArg Prod.snd h⟩

end ApiClient
