import ApiClient.Proofs.Compile.Calls

/-!
# The contexts on the way

A compilation passes through the contexts before and after each of its steps, those of the
references that it meets included. It ends with a type or with an error, and in either case another
one can follow.
-/

namespace ApiClient

open TypeScript

/-- Carrying out a plan passes through a context, whether or not it will succeed. -/
inductive Passes (env : Env) : {α : Type} → Plan α → Context → Context → Prop where
  | here {α : Type} (x : Plan α) (ctx : Context) : Passes env x ctx ctx
  | act {α σ : Type} {b : Build σ} {next : σ → Plan α} {ctx ctx₁ ctx' : Context} {a : σ}
      (hb : b.outcome ctx = (.ok a, ctx₁)) (hnext : Passes env (next a) ctx₁ ctx') :
      Passes env (.act b next) ctx ctx'
  | fail {α σ : Type} {b : Build σ} {next : σ → Plan α} {ctx ctx' : Context} {e : CompileError}
      (hb : b.outcome ctx = (.error e, ctx')) : Passes env (.act b next) ctx ctx'
  | inside {α : Type} {path : String} {mode : Mode} {plain : Bool} {next : Ty → Plan α}
      {ctx ctx' : Context} (hpath : Passes env (referencePlan env path mode plain) ctx ctx') :
      Passes env (.meet path mode plain next) ctx ctx'
  | past {α : Type} {path : String} {mode : Mode} {plain : Bool} {next : Ty → Plan α}
      {ctx ctx₁ ctx' : Context} {around : Around} {t : Ty} {log : List Meeting}
      (hpath : Runs env around (referencePlan env path mode plain) ctx (.ok t) ctx₁ log)
      (hnext : Passes env (next t) ctx₁ ctx') : Passes env (.meet path mode plain next) ctx ctx'

/-- The last context of a run is one that it passes through. -/
theorem Runs.passes {env : Env} {around : Around} {α : Type} {x : Plan α} {ctx ctx' : Context}
    {out : Except CompileError α} {log : List Meeting} (h : Runs env around x ctx out ctx' log) :
    Passes env x ctx ctx' := by
  induction h with
  | done a => exact .here _ _
  | act hb _ ih => exact .act hb ih
  | fail hb => exact .fail hb
  | meet hpath _ _ ih => exact .past hpath ih
  | stuck _ ih => exact .inside ih

/-- The contexts that calls from a fresh context pass through, one call after the other, whether or
not they succeed. -/
inductive Reached (env : Env) : Context → Prop where
  | start : Reached env {}
  | request {ctx ctx' : Context} {x : Plan Ty} (h : Reached env ctx) (hx : Request env x)
      (hpasses : Passes env x ctx ctx') : Reached env ctx'
  | marks {ctx : Context} (h : Reached env ctx) (node : RefOr Schema) :
      Reached env ((env.nodeMarks node).outcome ctx).2
  | reserve {ctx : Context} (h : Reached env ctx) (wanted : String) :
      Reached env ((Build.reserve wanted).outcome ctx).2

namespace Reached

variable {env : Env} {ctx ctx' : Context} (h : Reached env ctx)

include h

theorem schemaType (node : Option (RefOr Schema)) (name : Option String) (mode : Mode) :
    Reached env ((env.schemaType node name mode).outcome ctx).2 := by
  obtain ⟨log, hrun⟩ := env.ends_schemaPlan node name mode ctx
  exact h.request (.schema node name mode) hrun.passes

theorem referenceType (path : String) (mode : Mode) (plain : Bool) :
    Reached env ((env.referenceType path mode plain).outcome ctx).2 := by
  obtain ⟨log, hrun⟩ := env.ends_follow path mode plain ctx
  exact h.request (.reference path mode plain) hrun.passes

/-- Calls that succeed lead from a context on the way to another one. -/
theorem calls (hcalls : Calls env ctx ctx') : Reached env ctx' := by
  induction hcalls with
  | refl => exact h
  | tail _ hcall ih =>
    cases hcall with
    | @schema node name mode t hout =>
      have hctx := ih.schemaType node name mode
      rwa [hout] at hctx
    | @reference path mode plain t hout =>
      have hctx := ih.referenceType path mode plain
      rwa [hout] at hctx
    | @marks node flags hout =>
      have hctx := ih.marks node
      rwa [hout] at hctx
    | @reserve wanted name hout =>
      have hctx := ih.reserve wanted
      rwa [hout] at hctx

end Reached

end ApiClient
