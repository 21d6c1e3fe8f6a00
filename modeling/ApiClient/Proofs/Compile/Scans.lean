import ApiClient.Proofs.Compile.Marks

/-!
# Scans end

A scan goes from reference to reference until it comes to one that it knows or is in the middle of,
so it needs no bound on the references. Whatever is known before, the bounded evaluation comes to
what the scan without a bound comes to.
-/

namespace ApiClient

/-- What is scanned: a node, or parts of a schema after some marks were found. -/
inductive Task where
  | node (c : RefOr Schema)
  | parts (cs : List (RefOr Schema)) (found : Flags)

/-- A scan without a bound on the references, with its result and the walk after it. -/
inductive Scans (snapshot : Snapshot) : Task → Walk → Except CompileError Flags → Walk → Prop where
  | inline {s : Schema} {walk walk' : Walk} {out : Except CompileError Flags}
      (h : Scans snapshot (.parts s.scanned s.marks) walk out walk') :
      Scans snapshot (.node (.inline s)) walk out walk'
  | known {path : String} {walk : Walk} {flags : Flags}
      (h : Table.get? path walk.known = some flags) :
      Scans snapshot (.node (.ref path)) walk (.ok flags) walk
  | again {path : String} {walk : Walk} (hnew : Table.get? path walk.known = none)
      (hmem : path ∈ walk.path) :
      Scans snapshot (.node (.ref path)) walk (.ok .none) { walk with cuts := walk.cuts + 1 }
  | lost {path : String} {walk : Walk} {e : ResolveError}
      (hnew : Table.get? path walk.known = none) (hmem : path ∉ walk.path)
      (hs : snapshot.resolve Schema.ofNode path = .error e) :
      Scans snapshot (.node (.ref path)) walk (.error (.reference e))
        { walk with path := path :: walk.path }
  | found {path : String} {s : Schema} {walk walk₁ : Walk} {flags : Flags}
      (hnew : Table.get? path walk.known = none) (hmem : path ∉ walk.path)
      (hs : snapshot.resolve Schema.ofNode path = .ok s)
      (h : Scans snapshot (.node (.inline s)) { walk with path := path :: walk.path } (.ok flags)
        walk₁) :
      Scans snapshot (.node (.ref path)) walk (.ok flags) (walk.back walk₁ path flags)
  | fail {path : String} {s : Schema} {walk walk₁ : Walk} {e : CompileError}
      (hnew : Table.get? path walk.known = none) (hmem : path ∉ walk.path)
      (hs : snapshot.resolve Schema.ofNode path = .ok s)
      (h : Scans snapshot (.node (.inline s)) { walk with path := path :: walk.path } (.error e)
        walk₁) :
      Scans snapshot (.node (.ref path)) walk (.error e) walk₁
  | nil {found : Flags} {walk : Walk} : Scans snapshot (.parts [] found) walk (.ok found) walk
  | full {c : RefOr Schema} {cs : List (RefOr Schema)} {found : Flags} {walk : Walk}
      (hboth : found.both) : Scans snapshot (.parts (c :: cs) found) walk (.ok found) walk
  | cons {c : RefOr Schema} {cs : List (RefOr Schema)} {found more : Flags}
      {walk walk₁ walk₂ : Walk} {out : Except CompileError Flags} (hboth : ¬found.both)
      (hc : Scans snapshot (.node c) walk (.ok more) walk₁)
      (hcs : Scans snapshot (.parts cs (found.join more)) walk₁ out walk₂) :
      Scans snapshot (.parts (c :: cs) found) walk out walk₂
  | stop {c : RefOr Schema} {cs : List (RefOr Schema)} {found : Flags} {walk walk₁ : Walk}
      {e : CompileError} (hboth : ¬found.both)
      (hc : Scans snapshot (.node c) walk (.error e) walk₁) :
      Scans snapshot (.parts (c :: cs) found) walk (.error e) walk₁

namespace Scans

variable {snapshot : Snapshot} {task : Task} {walk walk₁ walk₂ : Walk}
  {out out₁ out₂ : Except CompileError Flags}

theorem path_eq (h : Scans snapshot task walk out walk₁) {flags : Flags} (hout : out = .ok flags) :
    walk₁.path = walk.path := by
  induction h generalizing flags with
  | inline _ ih => exact ih hout
  | known | again | nil | full => rfl
  | lost | fail | stop => cases hout
  | found _ _ _ _ ih =>
    have hpath := ih rfl
    unfold Walk.back
    split <;> simp [hpath]
  | cons _ _ _ ihc ihcs => exact (ihcs hout).trans (ihc rfl)

theorem unique (h₁ : Scans snapshot task walk out₁ walk₁)
    (h₂ : Scans snapshot task walk out₂ walk₂) :
    out₁ = out₂ ∧ walk₁ = walk₂ := by
  induction h₁ generalizing out₂ walk₂ with
  | inline _ ih =>
    cases h₂ with
    | inline h => exact ih h
  | known h =>
    cases h₂ with
    | known h' => exact ⟨congrArg _ (Option.some.inj (h.symm.trans h')), rfl⟩
    | again hnew | lost hnew | found hnew | fail hnew => cases h.symm.trans hnew
  | again hnew hmem =>
    cases h₂ with
    | known h => cases hnew.symm.trans h
    | again => exact ⟨rfl, rfl⟩
    | lost _ hmem' | found _ hmem' | fail _ hmem' => exact absurd hmem hmem'
  | lost hnew hmem hs =>
    cases h₂ with
    | known h => cases hnew.symm.trans h
    | again _ hmem' => exact absurd hmem' hmem
    | lost _ _ hs' =>
      cases hs.symm.trans hs'
      exact ⟨rfl, rfl⟩
    | found _ _ hs' | fail _ _ hs' => cases hs.symm.trans hs'
  | found hnew hmem hs _ ih =>
    cases h₂ with
    | known h => cases hnew.symm.trans h
    | again _ hmem' => exact absurd hmem' hmem
    | lost _ _ hs' => cases hs.symm.trans hs'
    | found _ _ hs' h =>
      cases hs.symm.trans hs'
      obtain ⟨hflags, rfl⟩ := ih h
      cases hflags
      exact ⟨rfl, rfl⟩
    | fail _ _ hs' h =>
      cases hs.symm.trans hs'
      cases (ih h).1
  | fail hnew hmem hs _ ih =>
    cases h₂ with
    | known h => cases hnew.symm.trans h
    | again _ hmem' => exact absurd hmem' hmem
    | lost _ _ hs' => cases hs.symm.trans hs'
    | found _ _ hs' h =>
      cases hs.symm.trans hs'
      cases (ih h).1
    | fail _ _ hs' h =>
      cases hs.symm.trans hs'
      exact ih h
  | nil =>
    cases h₂ with
    | nil => exact ⟨rfl, rfl⟩
  | full hboth =>
    cases h₂ with
    | full => exact ⟨rfl, rfl⟩
    | cons hnot | stop hnot => exact absurd hboth hnot
  | cons hnot _ _ ihc ihcs =>
    cases h₂ with
    | full hboth => exact absurd hboth hnot
    | cons _ hc hcs =>
      obtain ⟨hmore, rfl⟩ := ihc hc
      cases hmore
      exact ihcs hcs
    | stop _ hc => cases (ihc hc).1
  | stop hnot _ ihc =>
    cases h₂ with
    | full hboth => exact absurd hboth hnot
    | cons _ hc => cases (ihc hc).1
    | stop _ hc => exact ihc hc

end Scans

namespace Scan

/-- A bounded scan comes to what a scan without a bound comes to, if it begins in the middle of some
references. -/
def Ends (snapshot : Snapshot) (left : List String) (task : Task) (x : Scan Flags) : Prop :=
  ∀ walk, walk.path = left → Scans snapshot task walk (x.outcome walk).1 (x.outcome walk).2

end Scan

section

variable {snapshot : Snapshot} {left : List String} {follow : String → Scan Flags} {s : Schema}
  {found : Flags}

theorem Scan.Ends.of_part {x : Scan Flags} {rest : Flags → Scan Flags} {c : RefOr Schema}
    {parts : List (RefOr Schema)} (hx : x.Ends snapshot left (.node c))
    (hrest : ∀ more, (rest more).Ends snapshot left (.parts parts (found.join more))) :
    Scan.Ends snapshot left (.parts (c :: parts) found)
      (if found.both then pure found else x >>= rest) := by
  intro walk hpath
  split
  next hboth => exact .full hboth
  next hboth =>
    have hc := hx walk hpath
    rw [Scan.outcome_bind]
    rcases hout : x.outcome walk with ⟨e | more, walk₁⟩ <;> rw [hout] at hc
    · exact .stop hboth hc
    · exact .cons hboth hc (hrest more walk₁ ((hc.path_eq rfl).trans hpath))

theorem scanParts_ends {parts : List (RefOr Schema)}
    (href : ∀ path, .ref path ∈ parts → (follow path).Ends snapshot left (.node (.ref path)))
    (hinline : ∀ t, .inline t ∈ parts → (t.scan follow).Ends snapshot left (.node (.inline t)))
    (small : ∀ c ∈ parts, sizeOf c < sizeOf s) :
    (scanParts follow s parts small found).Ends snapshot left (.parts parts found) := by
  induction parts generalizing found with
  | nil =>
    intro walk _
    rw [scanParts]
    exact .nil
  | cons c rest ih =>
    have href' : ∀ path, .ref path ∈ rest → (follow path).Ends snapshot left (.node (.ref path)) :=
      fun path hp ↦ href path (List.mem_cons_of_mem _ hp)
    have hinline' : ∀ t, .inline t ∈ rest →
        (t.scan follow).Ends snapshot left (.node (.inline t)) :=
      fun t ht ↦ hinline t (List.mem_cons_of_mem _ ht)
    cases c with
    | ref path =>
      rw [scanParts]
      exact .of_part (href path List.mem_cons_self) fun more ↦ ih href' hinline' _
    | inline t =>
      rw [scanParts]
      exact .of_part (hinline t List.mem_cons_self) fun more ↦ ih href' hinline' _

theorem scan_ends (hfollow : ∀ path, RefOr.Mentions (.inline s) path →
      (follow path).Ends snapshot left (.node (.ref path))) :
    (s.scan follow).Ends snapshot left (.node (.inline s)) := by
  induction hsize : sizeOf s using Nat.strongRecOn generalizing s with
  | ind size ih =>
  subst hsize
  intro walk hpath
  rw [Schema.scan]
  refine .inline (scanParts_ends (fun path hp ↦ ?_) (fun t ht ↦ ?_) _ walk hpath)
  · exact hfollow path (.part (Schema.part_of_scanned hp) (.ref path))
  · have hlt := Schema.sizeOf_lt_of_mem_scanned ht
    rw [RefOr.inline.sizeOf_spec] at hlt
    refine ih (sizeOf t) (by omega) (fun path hp ↦ ?_) rfl
    exact hfollow path (.part (Schema.part_of_scanned ht) hp)

theorem scanRef_ends {hops : Nat} {path : String} (hhops : snapshot.depth path left < hops) :
    (scanRef snapshot hops path).Ends snapshot left (.node (.ref path)) := by
  induction hops generalizing path left with
  | zero => omega
  | succ hops ih =>
    rintro walk rfl
    rw [outcome_scanRef]
    split
    next flags hknown => exact .known hknown
    next hnew =>
      split
      next hmem => exact .again hnew hmem
      next hmem =>
        split
        next e hs => exact .lost hnew hmem hs
        next s hs =>
          have hends : (s.scan (scanRef snapshot hops)).Ends snapshot (path :: walk.path)
              (.node (.inline s)) := scan_ends fun other hother ↦ ih <|
            Nat.lt_of_lt_of_le
              (Snapshot.depth_cons_lt (snapshot.mem_texts_of_mentions hs hother) hmem)
              (Nat.le_of_lt_succ hhops)
          have hscan := hends { walk with path := path :: walk.path } rfl
          rcases hout : (s.scan (scanRef snapshot hops)).outcome
            { walk with path := path :: walk.path } with ⟨e | flags, walk₁⟩ <;> rw [hout] at hscan
          · exact .fail hnew hmem hs hscan
          · exact .found hnew hmem hs hscan

end

/-- The scan of a node ends with what the bounded evaluation comes to. -/
theorem Env.scans_iff {env : Env} (hmodes : env.options.singleMode = false) (node : RefOr Schema)
    (ctx : Context) (out : Except CompileError Flags) (ctx' : Context) :
    (env.nodeMarks node).outcome ctx = (out, ctx') ↔
      ∃ walk, Scans env.snapshot (.node node) { known := ctx.flags } out walk ∧
        ctx' = { ctx with flags := walk.known } := by
  have hends : (env.nodeScan node).Ends env.snapshot [] (.node node) := by
    have href : ∀ path, (scanRef env.snapshot env.snapshot.scanHops path).Ends env.snapshot []
        (.node (.ref path)) :=
      fun path ↦ scanRef_ends (Nat.lt_succ_of_le (env.snapshot.depth_le path []))
    cases node with
    | ref path => exact href path
    | inline s => exact scan_ends fun path _ ↦ href path
  have hscan := hends { known := ctx.flags } rfl
  rw [nodeMarks_eq hmodes, Build.outcome_scan]
  constructor
  · intro h
    cases h
    exact ⟨_, hscan, rfl⟩
  · rintro ⟨walk, hwalk, rfl⟩
    obtain ⟨rfl, rfl⟩ := hscan.unique hwalk
    rfl

end ApiClient
