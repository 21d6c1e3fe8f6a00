import ApiClient.Compile.Reference

/-!
# Looking up references

What a reference stands for: the value at its place, read as an object of the kind that is expected
there.
-/

namespace ApiClient

section

variable {α : Type} {snapshot : Snapshot} {path : String} {v : Json.Value}

/-- A value read as an object of some kind. -/
def decode (read : Node → Read α) (v : Json.Value) : Except Fault α :=
  Read.result (read (Node.ofValue v))

/-- What comes of a value that is read where a reference points. -/
def expected (path : String) : Except Fault α → Except ResolveError α
  | .ok a => .ok a
  | .error _ => .error (.unexpected path)

theorem resolve_of_lookup (read : Node → Read α) (h : snapshot.lookup path = .ok v) :
    snapshot.resolve read path = expected path (decode read v) := by
  unfold Snapshot.resolve decode
  rw [h]
  show (match Read.result (read (Node.ofValue v)) with
    | .ok a => Except.ok a
    | .error _ => Except.error (ResolveError.unexpected path)) = _
  cases Read.result (read (Node.ofValue v)) <;> rfl

theorem expected_eq_ok {x : Except Fault α} {a : α} : expected path x = .ok a ↔ x = .ok a := by
  cases x <;> simp [expected]

theorem lookup_of_segments {names : List String} (h : Pointer.segments path = .ok names) :
    snapshot.lookup path = (snapshot.root.at? names).elim (.error (.notFound path)) .ok := by
  cases hv : snapshot.root.at? names <;>
    simp [Snapshot.lookup, h, hv, bind, Except.bind, pure, Except.pure, throw, throwThe,
      MonadExceptOf.throw]

theorem lookup_eq_ok : snapshot.lookup path = .ok v ↔
    ∃ names, Pointer.segments path = .ok names ∧ snapshot.root.at? names = some v := by
  unfold Snapshot.lookup
  cases Pointer.segments path with
  | error e => simp [bind, Except.bind]
  | ok names =>
    cases hv : snapshot.root.at? names <;>
      simp [bind, Except.bind, pure, Except.pure, throw, throwThe, MonadExceptOf.throw, hv]

theorem resolve_eq_ok {read : Node → Read α} {a : α} : snapshot.resolve read path = .ok a ↔
    ∃ v, snapshot.lookup path = .ok v ∧ decode read v = .ok a := by
  cases hv : snapshot.lookup path with
  | error e => simp [Snapshot.resolve, hv, bind, Except.bind]
  | ok v =>
    rw [resolve_of_lookup read hv, expected_eq_ok]
    simp

end

namespace Env

variable {env : Env} {path : String} {s : Schema}

theorem target_eq_ok {plain : Bool} :
    env.target path plain = .ok s ↔ ∃ t, env.snapshot.resolve Schema.ofNode path = .ok t ∧
      s = if plain then { t with discriminator := none } else t := by
  unfold target
  cases env.snapshot.resolve Schema.ofNode path with
  | error e => simp [bind, Except.bind]
  | ok t => simp [bind, Except.bind, pure, Except.pure, eq_comm]

theorem target_of_lookup {v : Json.Value} (h : env.snapshot.lookup path = .ok v)
    (hs : decode Schema.ofNode v = .ok s) : env.target path false = .ok s := by
  refine target_eq_ok.2 ⟨s, ?_, rfl⟩
  rw [resolve_of_lookup _ h, hs]
  rfl

end Env

end ApiClient
