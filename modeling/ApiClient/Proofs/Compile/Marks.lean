import ApiClient.Proofs.Compile.Closure
import ApiClient.Proofs.Compile.Steps

/-!
# What a scan finds

A scan finds the marks that are in the closure of a schema, whatever results were known before. On
the way down it leaves out the references that it is in the middle of, and counts how often. A
result for which nothing was left out holds wherever the scan began, and so does the result for a
reference that is not below another one.
-/

namespace ApiClient

namespace Scan

variable {α β : Type}

/-- The result of a scan, and the walk after it. -/
def outcome (x : Scan α) (walk : Walk) : Except CompileError α × Walk :=
  StateT.run (ExceptT.run x) walk

theorem outcome_bind (x : Scan α) (f : α → Scan β) (walk : Walk) :
    (x >>= f).outcome walk =
      match x.outcome walk with
      | (.ok a, walk₁) => (f a).outcome walk₁
      | (.error e, walk₁) => (.error e, walk₁) := by
  simp only [outcome, ExceptT.run_bind, StateT.run_bind]
  rcases StateT.run (ExceptT.run x) walk with ⟨_ | _, _⟩ <;> rfl

@[simp] theorem outcome_get_bind (f : Walk → Scan β) (walk : Walk) :
    Scan.outcome (get >>= f) walk = (f walk).outcome walk := rfl

@[simp] theorem outcome_modify_bind (g : Walk → Walk) (f : PUnit → Scan β) (walk : Walk) :
    Scan.outcome (modify g >>= f) walk = (f ⟨⟩).outcome (g walk) := rfl

def Gives (x : Scan α) (walk : Walk) (a : α) (walk' : Walk) : Prop :=
  StateT.run (ExceptT.run x) walk = (.ok a, walk')

variable {walk walk' : Walk}

theorem gives_iff {x : Scan α} {a : α} : Gives x walk a walk' ↔ x.outcome walk = (.ok a, walk') :=
  .rfl

theorem gives_bind {x : Scan α} {f : α → Scan β} {b : β} :
    Gives (x >>= f) walk b walk' ↔ ∃ a walk₁, Gives x walk a walk₁ ∧ Gives (f a) walk₁ b walk' := by
  simp only [gives_iff, outcome_bind]
  rcases x.outcome walk with ⟨e | a, walk₁⟩
  · simp
  · constructor
    · intro h
      exact ⟨a, walk₁, rfl, h⟩
    · rintro ⟨_, _, h, hf⟩
      cases h
      exact hf

@[simp] theorem gives_pure {a b : α} : Gives (pure a) walk b walk' ↔ b = a ∧ walk' = walk := by
  constructor
  · intro h
    cases h
    exact ⟨rfl, rfl⟩
  · rintro ⟨rfl, rfl⟩
    rfl

end Scan

/-- The walk after what a reference points to has been scanned. -/
def Walk.back (start walk : Walk) (path : String) (flags : Flags) : Walk :=
  if walk.cuts = start.cuts ∨ walk.path.erase path = [] then
    { walk with path := walk.path.erase path, known := Table.put path flags walk.known }
  else { walk with path := walk.path.erase path }

theorem outcome_scanRef (snapshot : Snapshot) (hops : Nat) (path : String) (walk : Walk) :
    (scanRef snapshot (hops + 1) path).outcome walk =
      match Table.get? path walk.known with
      | some flags => (.ok flags, walk)
      | none =>
        if path ∈ walk.path then (.ok .none, { walk with cuts := walk.cuts + 1 }) else
        match snapshot.resolve Schema.ofNode path with
        | .error e => (.error (.reference e), { walk with path := path :: walk.path })
        | .ok s =>
          match (s.scan (scanRef snapshot hops)).outcome
            { walk with path := path :: walk.path } with
          | (.ok flags, walk₁) => (.ok flags, walk.back walk₁ path flags)
          | (.error e, walk₁) => (.error e, walk₁) := by
  rw [scanRef, Scan.outcome_get_bind]
  cases hknown : Table.get? path walk.known with
  | some flags => rfl
  | none =>
    by_cases hmem : path ∈ walk.path
    · simp only [hmem, List.contains_eq_mem, decide_true, if_true, Scan.outcome_get_bind]
      rfl
    · cases hs : snapshot.resolve Schema.ofNode path with
      | error e =>
        simp only [hmem, List.contains_eq_mem, decide_false, Bool.false_eq_true, if_false,
          Scan.outcome_get_bind]
        rfl
      | ok s =>
        simp only [hmem, List.contains_eq_mem, decide_false, Bool.false_eq_true, if_false,
          Scan.outcome_get_bind, Scan.outcome_modify_bind]
        rw [Scan.outcome_bind]
        rcases (s.scan (scanRef snapshot hops)).outcome { walk with path := path :: walk.path } with
          ⟨e | flags, walk₁⟩
        · rfl
        · simp only [Scan.outcome_get_bind, Scan.outcome_modify_bind, Walk.back]
          split <;> split <;> simp_all <;> rfl

/-- A reference is known, or it is met again, or what it points to is scanned. -/
theorem scanRef_gives {snapshot : Snapshot} {hops : Nat} {path : String} {walk walk' : Walk}
    {flags : Flags} : (scanRef snapshot (hops + 1) path).Gives walk flags walk' ↔
      Table.get? path walk.known = some flags ∧ walk' = walk ∨
      Table.get? path walk.known = none ∧ path ∈ walk.path ∧ flags = .none ∧
        walk' = { walk with cuts := walk.cuts + 1 } ∨
      Table.get? path walk.known = none ∧ path ∉ walk.path ∧ ∃ target walk₁,
        snapshot.resolve Schema.ofNode path = .ok target ∧
        (target.scan (scanRef snapshot hops)).Gives { walk with path := path :: walk.path } flags
          walk₁ ∧ walk' = walk.back walk₁ path flags := by
  simp only [Scan.gives_iff]
  rw [outcome_scanRef]
  cases hknown : Table.get? path walk.known with
  | some f => simp [eq_comm]
  | none =>
    by_cases hmem : path ∈ walk.path
    · simp [hmem, eq_comm]
    · cases hs : snapshot.resolve Schema.ofNode path with
      | error e => simp [hmem]
      | ok target =>
        rcases hscan : (target.scan (scanRef snapshot hops)).outcome
          { walk with path := path :: walk.path } with ⟨e | f, walk₁⟩
        · simp [hmem, hscan]
        · simp only [hmem, hscan, if_false, not_false_eq_true]
          constructor
          · intro h
            cases h
            exact .inr (.inr ⟨trivial, trivial, target, walk₁, rfl, hscan, rfl⟩)
          · rintro (⟨h, -⟩ | ⟨-, h, -⟩ | ⟨-, -, _, _, htarget, hgives, rfl⟩)
            · cases h
            · cases h
            · cases htarget
              cases hscan.symm.trans hgives
              rfl

/-- The marks are exactly those in the closure of a node, and no reference in it points nowhere
unless both marks were found. -/
structure Right (snapshot : Snapshot) (c : RefOr Schema) (flags : Flags) : Prop where
  sound : ∀ mode, flags.has mode → Shows snapshot [] c (.mark mode)
  complete : ∀ finding, Shows snapshot [] c finding → flags.covers finding

/-- The known results are right wherever a scan begins. -/
def Exact (snapshot : Snapshot) (known : Table Flags) : Prop :=
  ∀ path flags, Table.get? path known = some flags → Right snapshot (.ref path) flags

theorem Exact.put {snapshot : Snapshot} {known : Table Flags} {path : String} {flags : Flags}
    (h : Exact snapshot known) (hflags : Right snapshot (.ref path) flags) :
    Exact snapshot (Table.put path flags known) := by
  intro other found hfound
  rw [Table.get?_put] at hfound
  split at hfound
  next heq =>
    cases hfound
    exact heq ▸ hflags
  next => exact h other found hfound

/-- What a scan owes for something in which there is something to find, where the references on the
way down are left out. The marks that it finds are there, and it misses nothing except by leaving
out references; if it left out none it misses nothing at all. -/
structure Finds (snapshot : Snapshot) (shows : List String → Finding → Prop) (walk : Walk)
    (flags : Flags) (walk' : Walk) : Prop where
  path : walk'.path = walk.path
  cuts : walk.cuts ≤ walk'.cuts
  known : Exact snapshot walk'.known
  sound : ∀ mode, flags.has mode → shows [] (.mark mode)
  avoiding : ∀ finding, shows walk.path finding → flags.covers finding
  full : walk'.cuts = walk.cuts → ∀ finding, shows [] finding → flags.covers finding

def ShowsAny (snapshot : Snapshot) (flags : Flags) (parts : List (RefOr Schema))
    (left : List String) (finding : Finding) : Prop :=
  flags.covers finding ∨ ∃ c ∈ parts, Shows snapshot left c finding

namespace Finds

variable {snapshot : Snapshot} {walk walk₁ walk' : Walk} {flags flags' more : Flags}
  {c : RefOr Schema} {parts : List (RefOr Schema)}

theorem nil (h : Exact snapshot walk.known) :
    Finds snapshot (ShowsAny snapshot flags []) walk flags walk where
  path := rfl
  cuts := Nat.le_refl _
  known := h
  sound := fun _ ↦ .inl
  avoiding := fun _ h ↦ h.resolve_right (by simp)
  full := fun _ _ h ↦ h.resolve_right (by simp)

/-- With both marks found, nothing else matters. -/
theorem both (h : Exact snapshot walk.known) (hboth : flags.both) :
    Finds snapshot (ShowsAny snapshot flags parts) walk flags walk := by
  have hall : ∀ left finding, ShowsAny snapshot flags parts left finding →
      flags.covers finding := by
    rintro left finding (h | ⟨c, _, d, _, hd⟩)
    · exact h
    · exact Flags.covers_of_both hboth hd
  exact ⟨rfl, Nat.le_refl _, h, fun _ ↦ .inl, fun _ ↦ hall _ _, fun _ _ ↦ hall _ _⟩

theorem cons (hc : Finds snapshot (Shows snapshot · c ·) walk more walk₁)
    (hparts : Finds snapshot (ShowsAny snapshot (flags.join more) parts) walk₁ flags' walk') :
    Finds snapshot (ShowsAny snapshot flags (c :: parts)) walk flags' walk' := by
  have hstep : ∀ left finding, (Shows snapshot left c finding → more.covers finding) →
      ShowsAny snapshot flags (c :: parts) left finding →
      ShowsAny snapshot (flags.join more) parts left finding := by
    rintro left finding hmore (h | ⟨d, hd, h⟩)
    · exact .inl (Flags.covers_join_left h)
    · rcases List.mem_cons.1 hd with rfl | hd
      · exact .inl (Flags.covers_join_right (hmore h))
      · exact .inr ⟨d, hd, h⟩
  refine ⟨hparts.path.trans hc.path, Nat.le_trans hc.cuts hparts.cuts, hparts.known,
    fun mode h ↦ ?_, fun finding h ↦ ?_, fun hcuts finding h ↦ ?_⟩
  · rcases hparts.sound mode h with h | ⟨d, hd, h⟩
    · rw [Flags.covers, Flags.has_join, Bool.or_eq_true] at h
      exact h.imp id fun h ↦ ⟨c, List.mem_cons_self, hc.sound mode h⟩
    · exact .inr ⟨d, List.mem_cons_of_mem _ hd, h⟩
  · exact hparts.avoiding finding (hc.path ▸ hstep _ finding (hc.avoiding finding) h)
  · have hcuts₁ := hc.cuts
    have hcuts₂ := hparts.cuts
    exact hparts.full (by omega) finding (hstep _ finding (hc.full (by omega) finding) h)

theorem back {path : String} {target : Schema}
    (hs : snapshot.resolve Schema.ofNode path = .ok target)
    (h : Finds snapshot (Shows snapshot · (.inline target) ·)
      { walk with path := path :: walk.path } flags walk₁) :
    Finds snapshot (Shows snapshot · (.ref path) ·) walk flags (walk.back walk₁ path flags) := by
  have herase : walk₁.path.erase path = walk.path := by
    rw [h.path, List.erase_cons_head]
  have hsound : ∀ mode, flags.has mode → Shows snapshot [] (.ref path) (.mark mode) :=
    fun mode hmode ↦ (Shows.ref_iff hs).2 (h.sound mode hmode)
  have havoiding : ∀ finding, Shows snapshot walk.path (.ref path) finding →
      flags.covers finding := fun finding hfinding ↦ h.avoiding finding (hfinding.of_target hs)
  have hfull : walk₁.cuts = walk.cuts → ∀ finding, Shows snapshot [] (.ref path) finding →
      flags.covers finding := fun hcuts finding hfinding ↦
    h.full hcuts finding ((Shows.ref_iff hs).1 hfinding)
  unfold Walk.back
  rw [herase]
  split
  next hkeep =>
    refine ⟨rfl, h.cuts, h.known.put ⟨hsound, fun finding hfinding ↦ ?_⟩, hsound, havoiding, hfull⟩
    rcases hkeep with hcuts | hroot
    · exact hfull hcuts finding hfinding
    · exact havoiding finding (hroot ▸ hfinding)
  next => exact ⟨rfl, h.cuts, h.known, hsound, havoiding, hfull⟩

end Finds

/-- A scan finds what there is in a node, wherever it begins with some references on the way down.
-/
def Scan.Searches (snapshot : Snapshot) (left : List String) (c : RefOr Schema) (x : Scan Flags) :
    Prop :=
  ∀ walk flags walk', walk.path = left → Exact snapshot walk.known → x.Gives walk flags walk' →
    Finds snapshot (Shows snapshot · c ·) walk flags walk'

section

variable {snapshot : Snapshot} {left : List String} {follow : String → Scan Flags} {s : Schema}
  {walk walk' : Walk} {flags found : Flags}

/-- One part is scanned, and then the rest of them, unless both marks were found before. -/
theorem Finds.of_part {x : Scan Flags} {rest : Flags → Scan Flags} {c : RefOr Schema}
    {parts : List (RefOr Schema)} (hx : x.Searches snapshot left c)
    (hrest : ∀ more walk₁, walk₁.path = left → Exact snapshot walk₁.known →
      (rest more).Gives walk₁ flags walk' →
      Finds snapshot (ShowsAny snapshot (found.join more) parts) walk₁ flags walk')
    (hpath : walk.path = left) (hknown : Exact snapshot walk.known)
    (h : (if found.both then pure found else x >>= rest).Gives walk flags walk') :
    Finds snapshot (ShowsAny snapshot found (c :: parts)) walk flags walk' := by
  split at h
  next hboth =>
    obtain ⟨rfl, rfl⟩ := Scan.gives_pure.1 h
    exact .both hknown hboth
  next =>
    obtain ⟨more, walk₁, hmore, h⟩ := Scan.gives_bind.1 h
    have hfinds := hx _ _ _ hpath hknown hmore
    exact hfinds.cons (hrest more walk₁ (hfinds.path.trans hpath) hfinds.known h)

theorem scanParts_finds {parts : List (RefOr Schema)}
    (href : ∀ path, .ref path ∈ parts → (follow path).Searches snapshot left (.ref path))
    (hinline : ∀ t, .inline t ∈ parts → (t.scan follow).Searches snapshot left (.inline t))
    (small : ∀ c ∈ parts, sizeOf c < sizeOf s) (hpath : walk.path = left)
    (hknown : Exact snapshot walk.known)
    (h : (scanParts follow s parts small found).Gives walk flags walk') :
    Finds snapshot (ShowsAny snapshot found parts) walk flags walk' := by
  induction parts generalizing found walk with
  | nil =>
    rw [scanParts, Scan.gives_pure] at h
    obtain ⟨rfl, rfl⟩ := h
    exact .nil hknown
  | cons c rest ih =>
    have href' : ∀ path, .ref path ∈ rest → (follow path).Searches snapshot left (.ref path) :=
      fun path hp ↦ href path (List.mem_cons_of_mem _ hp)
    have hinline' : ∀ t, .inline t ∈ rest → (t.scan follow).Searches snapshot left (.inline t) :=
      fun t ht ↦ hinline t (List.mem_cons_of_mem _ ht)
    cases c with
    | ref path =>
      rw [scanParts] at h
      exact .of_part (href path List.mem_cons_self) (fun _ _ ↦ ih href' hinline' _) hpath hknown h
    | inline t =>
      rw [scanParts] at h
      exact .of_part (hinline t List.mem_cons_self) (fun _ _ ↦ ih href' hinline' _) hpath hknown h

/-- The scan of a schema finds its marks if the references in it are scanned rightly. -/
theorem scan_searches (hfollow : ∀ path, RefOr.Mentions (.inline s) path →
      (follow path).Searches snapshot left (.ref path)) :
    (s.scan follow).Searches snapshot left (.inline s) := by
  induction hsize : sizeOf s using Nat.strongRecOn generalizing s with
  | ind size ih =>
  subst hsize
  intro walk flags walk' hpath hknown h
  rw [Schema.scan] at h
  have hscan : Finds snapshot (ShowsAny snapshot s.marks s.scanned) walk flags walk' := by
    refine scanParts_finds (fun path hp ↦ ?_) (fun t ht ↦ ?_) _ hpath hknown h
    · exact hfollow path (.part (Schema.part_of_scanned hp) (.ref path))
    · have hlt := Schema.sizeOf_lt_of_mem_scanned ht
      rw [RefOr.inline.sizeOf_spec] at hlt
      refine ih (sizeOf t) (by omega) (fun path hp ↦ ?_) rfl
      exact hfollow path (.part (Schema.part_of_scanned ht) hp)
  have hstart : ∀ left finding, Shows snapshot left (.inline s) finding →
      ShowsAny snapshot s.marks s.scanned left finding := by
    intro left finding h
    refine (Shows.inline_iff.1 h).imp (fun hbears ↦ ?_) id
    cases finding with
    | mark mode => exact hbears
    | dangling => cases hbears
  exact ⟨hscan.path, hscan.cuts, hscan.known, fun mode h ↦ Shows.inline_iff.2 (hscan.sound mode h),
    fun finding h ↦ hscan.avoiding finding (hstart _ finding h),
    fun hcuts finding h ↦ hscan.full hcuts finding (hstart _ finding h)⟩

end

/-- How many texts of the document are not on the way down. -/
def Snapshot.ahead (snapshot : Snapshot) (left : List String) : Nat :=
  snapshot.root.texts.countP fun path ↦ path ∉ left

/-- How many references a scan can go down from a reference. One that does not stand in the document
can only be the first. -/
def Snapshot.depth (snapshot : Snapshot) (path : String) (left : List String) : Nat :=
  if path ∈ snapshot.root.texts then snapshot.ahead left else snapshot.ahead left + 1

namespace Snapshot

variable {snapshot : Snapshot} {path other : String} {left : List String}

theorem ahead_cons_le (snapshot : Snapshot) (path : String) (left : List String) :
    snapshot.ahead (path :: left) ≤ snapshot.ahead left := by
  refine List.countP_mono_left fun p _ hp ↦ ?_
  simp only [List.mem_cons, not_or, decide_eq_true_eq] at hp ⊢
  exact hp.2

theorem ahead_cons_lt (hpath : path ∈ snapshot.root.texts) (hnew : path ∉ left) :
    snapshot.ahead (path :: left) < snapshot.ahead left := by
  refine countP_lt_of_mem hpath (fun p hp ↦ ?_) ?_ ?_
  · simp only [List.mem_cons, not_or, decide_eq_true_eq] at hp ⊢
    exact hp.2
  · simp
  · simp [hnew]

theorem depth_le (snapshot : Snapshot) (path : String) (left : List String) :
    snapshot.depth path left ≤ snapshot.size + 1 := by
  have htexts := snapshot.root.length_texts_le
  have hcount : snapshot.ahead left ≤ snapshot.root.texts.length := List.countP_le_length
  rw [← snapshot.size_eq] at htexts
  unfold depth
  split <;> omega

theorem depth_cons_lt (hother : other ∈ snapshot.root.texts) (hnew : path ∉ left) :
    snapshot.depth other (path :: left) < snapshot.depth path left := by
  unfold depth
  rw [if_pos hother]
  split
  next hpath => exact ahead_cons_lt hpath hnew
  next => exact Nat.lt_succ_of_le (ahead_cons_le snapshot path left)

end Snapshot

/-- The scan of a reference finds the marks in its closure, as long as there are enough hops. -/
theorem scanRef_searches {snapshot : Snapshot} {hops : Nat} {path : String} {left : List String}
    (hhops : snapshot.depth path left < hops) :
    (scanRef snapshot hops path).Searches snapshot left (.ref path) := by
  induction hops generalizing path left with
  | zero => omega
  | succ hops ih =>
    rintro walk flags walk' rfl hknown h
    rcases scanRef_gives.1 h with ⟨hfound, rfl⟩ | ⟨-, hmem, rfl, rfl⟩ |
      ⟨-, hnew, target, walk₁, hs, hscan, rfl⟩
    · have hright := hknown path flags hfound
      exact ⟨rfl, Nat.le_refl _, hknown, hright.sound,
        fun finding h ↦ hright.complete finding (h.mono (List.nil_subset _)),
        fun _ ↦ hright.complete⟩
    · refine ⟨rfl, Nat.le_succ _, hknown, fun mode h ↦ ?_,
        fun finding h ↦ absurd h (Shows.not_of_mem hmem), fun hcuts ↦ ?_⟩
      · rw [Flags.has_none] at h
        cases h
      · exact absurd hcuts (Nat.succ_ne_self _)
    · have hsearches : (target.scan (scanRef snapshot hops)).Searches snapshot (path :: walk.path)
          (.inline target) := scan_searches fun other hother ↦ ih <|
        Nat.lt_of_lt_of_le (Snapshot.depth_cons_lt (snapshot.mem_texts_of_mentions hs hother) hnew)
          (Nat.le_of_lt_succ hhops)
      exact .back hs (hsearches _ _ _ rfl hknown hscan)

theorem Build.outcome_scan (scan : Scan Flags) (ctx : Context) :
    (Build.scan scan).outcome ctx = ((scan.outcome { known := ctx.flags }).1,
      { ctx with flags := (scan.outcome { known := ctx.flags }).2.known }) := by
  unfold Build.scan
  rw [outcome_bind_ok (outcome_get ctx)]
  have hrun : scan.run { known := ctx.flags } = scan.outcome { known := ctx.flags } := rfl
  rw [hrun]
  rcases scan.outcome { known := ctx.flags } with ⟨_ | _, _⟩ <;> rfl

theorem Build.scan_eq_ok {scan : Scan Flags} {ctx ctx' : Context} {flags : Flags} :
    (Build.scan scan).outcome ctx = (.ok flags, ctx') ↔
      ∃ walk, scan.Gives { known := ctx.flags } flags walk ∧
        ctx' = { ctx with flags := walk.known } := by
  simp only [outcome_scan, Scan.gives_iff]
  rcases scan.outcome { known := ctx.flags } with ⟨e | found, walk⟩
  · simp
  · constructor
    · intro h
      cases h
      exact ⟨walk, rfl, rfl⟩
    · rintro ⟨_, h, rfl⟩
      cases h
      rfl

namespace Env

variable {env : Env} {ctx ctx' : Context} {flags : Flags}

def nodeScan (env : Env) : RefOr Schema → Scan Flags
  | .inline s => s.scan (scanRef env.snapshot env.snapshot.scanHops)
  | .ref path => scanRef env.snapshot env.snapshot.scanHops path

theorem nodeMarks_eq (hmodes : env.options.singleMode = false) (node : RefOr Schema) :
    env.nodeMarks node = Build.scan (env.nodeScan node) := by
  cases node <;> simp [nodeMarks, closureMarks, nodeScan, hmodes]

theorem nodeScan_searches (env : Env) (node : RefOr Schema) :
    (env.nodeScan node).Searches env.snapshot [] node := by
  have href : ∀ path, (scanRef env.snapshot env.snapshot.scanHops path).Searches env.snapshot []
      (.ref path) :=
    fun path ↦ scanRef_searches (Nat.lt_succ_of_le (env.snapshot.depth_le path []))
  cases node with
  | ref path => exact href path
  | inline s => exact scan_searches fun path _ ↦ href path

/-- The marks in the closure of a node, with all results right that are known in the end. -/
theorem nodeMarks_exact (hmodes : env.options.singleMode = false) {node : RefOr Schema}
    (hknown : Exact env.snapshot ctx.flags)
    (h : (env.nodeMarks node).outcome ctx = (.ok flags, ctx')) :
    Exact env.snapshot ctx'.flags ∧ Right env.snapshot node flags := by
  rw [nodeMarks_eq hmodes] at h
  obtain ⟨walk, hscan, rfl⟩ := Build.scan_eq_ok.1 h
  have hfinds := env.nodeScan_searches node _ _ _ rfl hknown hscan
  exact ⟨hfinds.known, hfinds.sound, hfinds.avoiding⟩

theorem closureMarks_exact (hmodes : env.options.singleMode = false) {s : Schema}
    (hknown : Exact env.snapshot ctx.flags)
    (h : (env.closureMarks s).outcome ctx = (.ok flags, ctx')) :
    Exact env.snapshot ctx'.flags ∧ Right env.snapshot (.inline s) flags :=
  nodeMarks_exact hmodes hknown h

end Env

end ApiClient
