import ApiClient.Proofs.Compile.Calls
import ApiClient.Proofs.Document.FreeReferences

/-!
# Scans are exact

A scan finds exactly the marks in the closure of what it began with, whatever was scanned or
compiled before, and so do the results that are kept of it.
-/

namespace ApiClient

structure Reflects (snapshot : Snapshot) (c : RefOr Schema) (flags : Flags) : Prop where
  readOnly : flags.readOnly ↔ ∃ s, Closure snapshot [] c (.inline s) ∧ s.readOnly = some true
  writeOnly : flags.writeOnly ↔ ∃ s, Closure snapshot [] c (.inline s) ∧ s.writeOnly = some true

theorem shows_mark_iff {snapshot : Snapshot} {left : List String} {c : RefOr Schema} {mode : Mode} :
    Shows snapshot left c (.mark mode) ↔
      ∃ s : Schema, Closure snapshot left c (.inline s) ∧ s.marks.has mode := by
  constructor
  · rintro ⟨d, hd, hbears⟩
    cases d with
    | ref path => cases hbears
    | inline s => exact ⟨s, hd, hbears⟩
  · rintro ⟨s, hs, hmarks⟩
    exact ⟨_, hs, hmarks⟩

theorem Right.has_iff {snapshot : Snapshot} {c : RefOr Schema} {flags : Flags}
    (h : Right snapshot c flags) (mode : Mode) :
    flags.has mode ↔ ∃ s : Schema, Closure snapshot [] c (.inline s) ∧ s.marks.has mode :=
  ⟨fun hmode ↦ shows_mark_iff.1 (h.sound mode hmode),
    fun hshows ↦ h.complete (.mark mode) (shows_mark_iff.2 hshows)⟩

theorem Right.reflects {snapshot : Snapshot} {c : RefOr Schema} {flags : Flags}
    (h : Right snapshot c flags) : Reflects snapshot c flags where
  readOnly := by
    rw [show flags.readOnly = flags.has .read from rfl, h.has_iff]
    simp only [Schema.has_read]
  writeOnly := by
    rw [show flags.writeOnly = flags.has .write from rfl, h.has_iff]
    simp only [Schema.has_write]

theorem Variants.reflects {env : Env} {key path : String} {plain : Bool} {s : Schema}
    {names : Aliases} (h : Variants env key path plain s names) :
    Reflects env.snapshot (.ref path) ⟨names.read.isSome, names.write.isSome⟩ := by
  obtain ⟨flags, hright, hown⟩ := h.marks
  have hflags : flags = ⟨names.read.isSome, names.write.isSome⟩ := by
    have hread : names.read.isSome = flags.readOnly := hown .read (by decide)
    have hwrite : names.write.isSome = flags.writeOnly := hown .write (by decide)
    rw [hread, hwrite]
  rw [← hflags]
  exact (hright.of_target h.target).reflects

/-- After any calls, the scan of a node ends, and if it has a result it says exactly which marks
there are among the schemas reached from the node. The results that are kept say the same of their
references. So a reference to a schema that is entered has a variant for a mode exactly if a schema
with the mark of the mode is reached from it, and no other keys are entered. -/
theorem scan_exact {env : Env} (hmodes : env.options.singleMode = false) {ctx : Context}
    (h : Calls env {} ctx) :
    (∀ node out ctx', (env.nodeMarks node).outcome ctx = (out, ctx') ↔
      ∃ walk, Scans env.snapshot (.node node) { known := ctx.flags } out walk ∧
        ctx' = { ctx with flags := walk.known }) ∧
    (∀ node flags ctx', (env.nodeMarks node).outcome ctx = (.ok flags, ctx') →
      Reflects env.snapshot node flags) ∧
    (∀ path flags, Table.get? path ctx.flags = some flags →
      Reflects env.snapshot (.ref path) flags) ∧
    (∀ path plain s names, env.target path plain = .ok s →
      Table.get? (env.aliasKey path plain) ctx.aliases = some names →
      Reflects env.snapshot (.ref path) ⟨names.read.isSome, names.write.isSome⟩) ∧
    ∀ key names, Table.get? key ctx.aliases = some names →
      ∃ path plain s, key = env.aliasKey path plain ∧ env.target path plain = .ok s := by
  have hmarked := h.marked hmodes
  refine ⟨fun node out ctx' ↦ Env.scans_iff hmodes node ctx out ctx', ?_, ?_, ?_, ?_⟩
  · intro node flags ctx' hflags
    exact (Env.nodeMarks_exact hmodes hmarked.flags hflags).2.reflects
  · intro path flags hflags
    exact (hmarked.flags path flags hflags).reflects
  · intro path plain s names htarget hnames
    obtain ⟨path', plain', s', hkey⟩ := hmarked.entry _ names List.not_mem_nil hnames
    obtain ⟨rfl, rfl⟩ := Env.aliasKey_injective htarget hkey.target hkey.key
    exact hkey.reflects
  · intro key names hnames
    obtain ⟨path, plain, s, hkey⟩ := hmarked.entry key names List.not_mem_nil hnames
    exact ⟨path, plain, s, hkey.key, hkey.target⟩

/-- In a ring of two read-only schemas, the read variant of one stands for a schema that is reached.
-/
theorem ring_has_readOnly : ∃ ctx, Calls Ring.env {} ctx ∧
    Table.has ctx.aliases "#/components/schemas/A" ∧
    ∃ s, Closure Ring.env.snapshot [] (.ref "#/components/schemas/A") (.inline s) ∧
      s.readOnly = some true := by
  obtain ⟨ctx, log, hsession, -, hentry⟩ := Ring.session
  obtain ⟨-, -, -, hvariants, -⟩ := scan_exact rfl hsession.calls
  have hreflects := hvariants _ false _ _ Ring.target_A hentry
  refine ⟨ctx, hsession.calls, ?_, hreflects.readOnly.1 rfl⟩
  rw [Table.has_eq_isSome]
  exact congrArg Option.isSome hentry

end ApiClient
