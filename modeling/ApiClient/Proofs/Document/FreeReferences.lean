import ApiClient.Compile.Reference
import ApiClient.Proofs.Text.Numbers
import ApiClient.Proofs.Text.Utf8

/-!
# Free references

The key for a type without its discriminator is made from a reference by the ending `Base` and, if
need be, a number. References that differ only in such a number name different members of one
object, and the object has fewer members than numbers are tried. So a number that makes the
reference point nowhere is always found.
-/

namespace ApiClient

namespace Text

variable {sep : Char}

theorem splitOn_of_notMem {ys : List Char} (h : sep ∉ ys) : splitOn sep ys = [ys] := by
  induction ys with
  | nil => rfl
  | cons c ys ih =>
    rw [List.mem_cons, not_or] at h
    rw [splitOn, ih h.2]
    exact if_neg (Ne.symm h.1)

/-- What is put after a text without the separator belongs to its last piece. -/
theorem splitOn_append (sep : Char) (xs : List Char) : ∃ pieces last, ∀ ys, sep ∉ ys →
    splitOn sep (xs ++ ys) = pieces ++ [last ++ ys] := by
  induction xs with
  | nil => exact ⟨[], [], fun ys h ↦ splitOn_of_notMem h⟩
  | cons c xs ih =>
    obtain ⟨pieces, last, ih⟩ := ih
    cases pieces with
    | nil =>
      by_cases hc : c = sep
      · refine ⟨[[]], last, fun ys h ↦ ?_⟩
        rw [List.cons_append, splitOn, ih ys h]
        exact if_pos hc
      · refine ⟨[], c :: last, fun ys h ↦ ?_⟩
        rw [List.cons_append, splitOn, ih ys h]
        exact if_neg hc
    | cons piece pieces =>
      by_cases hc : c = sep
      · refine ⟨[] :: piece :: pieces, last, fun ys h ↦ ?_⟩
        rw [List.cons_append, splitOn, ih ys h]
        exact if_pos hc
      · refine ⟨(c :: piece) :: pieces, last, fun ys h ↦ ?_⟩
        rw [List.cons_append, splitOn, ih ys h]
        exact if_neg hc

namespace Utf8

/-- No byte below 128 continues a character. -/
def Awaits (p : Option Pending) : Prop :=
  ∀ q ∈ p, 0x80 ≤ q.low

theorem awaits_start (b : Nat) : Awaits (start b).2 := by
  unfold start Awaits
  repeat' split
  all_goals simp

theorem awaits_extend (p : Pending) (b : Nat) : Awaits (extend p b).2 := by
  unfold extend
  split
  · dsimp only
    split <;> simp [Awaits]
  · exact awaits_start b

/-- A byte below 128 is a character of its own, whatever came before. -/
theorem decodeFrom_append {p : Option Pending} (hp : Awaits p) (bytes : List Nat) {b : Nat}
    (hb : b < 0x80) (rest : List Nat) :
    decodeFrom p (bytes ++ b :: rest) = decodeFrom p bytes ++ decodeFrom none (b :: rest) := by
  induction bytes generalizing p with
  | nil =>
    cases p with
    | none => rfl
    | some q =>
      have hlow : ¬(q.low ≤ b ∧ b ≤ q.high) := fun h ↦
        absurd (Nat.le_trans (hp q rfl) h.1) (Nat.not_le_of_lt hb)
      simp [decodeFrom, extend, start, hlow, hb]
  | cons first bytes ih =>
    cases p with
    | none =>
      simp only [List.cons_append, decodeFrom, List.append_assoc]
      rw [ih (awaits_start first)]
      simp only [decodeFrom]
    | some q =>
      simp only [List.cons_append, decodeFrom, List.append_assoc]
      rw [ih (awaits_extend q first)]
      simp only [decodeFrom]

end Utf8

end Text

namespace Pointer

theorem unescapeSlash_of_notMem {cs : List Char} (h : '~' ∉ cs) : unescapeSlash cs = cs := by
  fun_induction unescapeSlash cs with
  | case1 rest ih => simp at h
  | case2 c rest hne ih => rw [ih fun hmem ↦ h (List.mem_cons_of_mem _ hmem)]
  | case3 => rfl

theorem unescapeTilde_of_notMem {cs : List Char} (h : '~' ∉ cs) : unescapeTilde cs = cs := by
  fun_induction unescapeTilde cs with
  | case1 rest ih => simp at h
  | case2 c rest hne ih => rw [ih fun hmem ↦ h (List.mem_cons_of_mem _ hmem)]
  | case3 => rfl

/-- A character that ends no escape cuts a segment in two. -/
theorem unescapeSlash_append (xs : List Char) {c : Char} (hc : c ≠ '1') (ys : List Char) :
    unescapeSlash (xs ++ c :: ys) = unescapeSlash xs ++ unescapeSlash (c :: ys) := by
  fun_induction unescapeSlash xs with
  | case1 rest ih => simp [unescapeSlash, ih]
  | case2 d rest hne ih =>
    rw [List.cons_append, unescapeSlash, ih]
    · rfl
    · rintro more rfl heq
      cases rest with
      | nil => exact hc (List.cons.inj heq).1
      | cons e rest =>
        obtain ⟨rfl, -⟩ := List.cons.inj heq
        exact hne rest rfl rfl
  | case3 => rfl

theorem unescapeTilde_append (xs : List Char) {c : Char} (hc : c ≠ '0') (ys : List Char) :
    unescapeTilde (xs ++ c :: ys) = unescapeTilde xs ++ unescapeTilde (c :: ys) := by
  fun_induction unescapeTilde xs with
  | case1 rest ih => simp [unescapeTilde, ih]
  | case2 d rest hne ih =>
    rw [List.cons_append, unescapeTilde, ih]
    · rfl
    · rintro more rfl heq
      cases rest with
      | nil => exact hc (List.cons.inj heq).1
      | cons e rest =>
        obtain ⟨rfl, -⟩ := List.cons.inj heq
        exact hne rest rfl rfl
  | case3 => rfl

theorem percentBytes_of_notMem {cs : List Char} (h : '%' ∉ cs) :
    percentBytes cs = Text.Utf8.encode cs := by
  fun_induction percentBytes cs with
  | case1 => simp at h
  | case2 => simp at h
  | case3 c rest hne ih =>
    rw [ih fun hmem ↦ h (List.mem_cons_of_mem _ hmem)]
    rfl
  | case4 => rfl

/-- A character that can stand in no percent escape cuts a segment in two. -/
theorem percentBytes_append (xs : List Char) {c : Char} (hhex : CoreSchema.nat? 16 [c] = none)
    (hplus : c ≠ '+') (ys : List Char) :
    percentBytes (xs ++ c :: ys) = percentBytes xs ++ percentBytes (c :: ys) := by
  fun_induction percentBytes xs with
  | case1 a b rest byte hbyte ih => simp [percentBytes, hbyte, ih]
  | case2 a b rest hnone ih =>
    simp only [List.cons_append, percentBytes, hnone] at ih ⊢
    rw [ih]
  | case3 d rest hne ih =>
    have hstep : percentBytes (d :: (rest ++ c :: ys)) =
        Text.Utf8.encodeChar d ++ percentBytes (rest ++ c :: ys) := by
      by_cases hd : d = '%'
      · subst hd
        have hpercent : Text.Utf8.encodeChar '%' = [0x25] := by decide
        match rest with
        | [] =>
          cases ys with
          | nil => simp [percentBytes]
          | cons y ys =>
            have hnone : escapedByte? c y = none := by
              unfold escapedByte?
              rw [hhex]
              cases CoreSchema.nat? 16 [y] <;> simp [hplus]
            simp [percentBytes, hnone, hpercent]
        | [a] =>
          have hnone : escapedByte? a c = none := by
            unfold escapedByte?
            rw [hhex]
          simp [percentBytes, hnone, hpercent]
        | a :: b :: rest => exact (hne a b rest rfl rfl).elim
      · rw [percentBytes]
        exact fun a b rest h _ ↦ hd h
    rw [List.cons_append, hstep, ih, List.append_assoc]
  | case4 => rfl

/-- A character that neither escapes anything nor ends an escape cuts a segment in two, and what
comes after it is taken as it is if there is nothing to replace in it. -/
theorem decodeSegment_append (xs : List Char) {c : Char} (hc : c ≠ '0' ∧ c ≠ '1' ∧ c ≠ '+')
    (hhex : CoreSchema.nat? 16 [c] = none) {ys : List Char}
    (hys : ∀ d ∈ c :: ys, d ≠ '~' ∧ d ≠ '%' ∧ d.toNat < 0x80) :
    decodeSegment (xs ++ c :: ys) = decodeSegment xs ++ c :: ys := by
  have htilde : '~' ∉ c :: ys := fun h ↦ (hys _ h).1 rfl
  have hpercent : '%' ∉ c :: ys := fun h ↦ (hys _ h).2.1 rfl
  have hascii : ∀ d ∈ c :: ys, d.toNat < 0x80 := fun d hd ↦ (hys d hd).2.2
  have hbytes : Text.Utf8.encode (c :: ys) = c.toNat :: Text.Utf8.encode ys := by
    simp [Text.Utf8.encode, Text.Utf8.encodeChar, hascii c List.mem_cons_self]
  unfold decodeSegment percentDecode
  rw [unescapeSlash_append xs hc.2.1, unescapeSlash_of_notMem htilde,
    unescapeTilde_append _ hc.1, unescapeTilde_of_notMem htilde,
    percentBytes_append _ hhex hc.2.2, percentBytes_of_notMem hpercent, hbytes, Text.Utf8.decode,
    Text.Utf8.decodeFrom_append (by simp [Text.Utf8.Awaits]) _ (hascii c List.mem_cons_self),
    ← hbytes, ← Text.Utf8.decode, ← Text.Utf8.decode, Text.Utf8.decode_encode]

end Pointer

namespace Pointer

theorem plain_of_isDigit {c : Char} (h : c.isDigit) : c ≠ '~' ∧ c ≠ '%' ∧ c.toNat < 0x80 := by
  refine ⟨?_, ?_, ?_⟩
  · rintro rfl
    revert h
    decide
  · rintro rfl
    revert h
    decide
  · have hle : c.toNat ≤ 57 := (Char.isDigit_iff_toNat.1 h).2
    omega

/-- The digits of a number, put after a reference that ends in `Base`, belong to the last name along
it and stay there as they are. -/
theorem segments_base (path : String) : ∃ names name, ∀ digits : List Char,
    (∀ c ∈ digits, c.isDigit) → ∀ found,
      segments (path ++ "Base" ++ String.ofList digits) = .ok found →
      found = names ++ [String.ofList (name ++ 's' :: 'e' :: digits)] := by
  have htoList : ∀ digits : List Char,
      (path ++ "Base" ++ String.ofList digits).toList =
        path.toList ++ 'B' :: 'a' :: 's' :: 'e' :: digits := by
    intro digits
    simp
  unfold segments
  simp only [htoList]
  by_cases hroot : ∃ cs, path.toList = '#' :: '/' :: cs
  · obtain ⟨cs, hcs⟩ := hroot
    obtain ⟨pieces, last, hsplit⟩ := Text.splitOn_append '/' cs
    refine ⟨pieces.map fun piece ↦ String.ofList (decodeSegment piece),
      decodeSegment (last ++ ['B', 'a']), fun digits hdigits found hfound ↦ ?_⟩
    have hchars : ∀ d ∈ 's' :: 'e' :: digits, d ≠ '~' ∧ d ≠ '%' ∧ d.toNat < 0x80 := by
      intro d hd
      rcases List.mem_cons.1 hd with rfl | hd
      · decide
      rcases List.mem_cons.1 hd with rfl | hd
      · decide
      · exact plain_of_isDigit (hdigits d hd)
    have hslash : '/' ∉ 'B' :: 'a' :: 's' :: 'e' :: digits := by
      intro hmem
      have hdigit := hdigits '/' (by simpa using hmem)
      revert hdigit
      decide
    simp only [hcs, List.cons_append] at hfound
    rw [hsplit _ hslash, List.map_append, List.map_singleton,
      List.append_cons last 'B', List.append_cons _ 'a', List.append_assoc last,
      decodeSegment_append _ (by decide) (by decide) hchars] at hfound
    exact (Except.ok.inj hfound).symm
  · refine ⟨[], [], fun digits _ found hfound ↦ ?_⟩
    exfalso
    split at hfound
    next rest heq =>
      match hpath : path.toList with
      | [] => simp [hpath] at heq
      | [c] => simp [hpath] at heq
      | c :: d :: cs =>
        simp only [hpath, List.cons_append, List.cons.injEq] at heq
        exact hroot ⟨cs, by rw [hpath, heq.1, heq.2.1]⟩
    next => cases hfound

end Pointer

namespace Json

theorem Value.size_pos (v : Value) : 0 < v.size := by
  cases v <;> simp only [Value.size] <;> omega

theorem size_le_sizeItems {items : List Value} {v : Value} (h : v ∈ items) :
    v.size ≤ sizeItems items := by
  induction items with
  | nil => simp at h
  | cons w rest ih =>
    rw [sizeItems]
    rcases List.mem_cons.1 h with rfl | h
    · omega
    · have := ih h
      omega

theorem size_le_sizeMembers {members : List (String × Value)} {m : String × Value}
    (h : m ∈ members) : m.2.size ≤ sizeMembers members := by
  induction members with
  | nil => simp at h
  | cons w rest ih =>
    rw [sizeMembers]
    rcases List.mem_cons.1 h with rfl | h
    · omega
    · have := ih h
      omega

theorem length_le_sizeMembers (members : List (String × Value)) :
    members.length ≤ sizeMembers members := by
  induction members with
  | nil => simp [sizeMembers]
  | cons w rest ih =>
    have := w.2.size_pos
    rw [sizeMembers, List.length_cons]
    omega

theorem Value.size_le_of_at? {root v : Value} {names : List String}
    (h : root.at? names = some v) : v.size ≤ root.size := by
  induction names generalizing root with
  | nil => exact Nat.le_of_eq (congrArg Value.size (Option.some.inj h).symm)
  | cons name names ih =>
    cases root with
    | obj members =>
      obtain ⟨w, hw, h⟩ := Option.bind_eq_some_iff.1 h
      have := ih h
      have := size_le_sizeMembers (Table.mem_of_get? hw)
      simp only [Value.size] at this ⊢
      omega
    | arr items =>
      obtain ⟨w, hw, h⟩ := Option.bind_eq_some_iff.1 h
      obtain ⟨i, -, hi⟩ := Option.bind_eq_some_iff.1 hw
      have := ih h
      have := size_le_sizeItems (List.mem_of_getElem? hi)
      simp only [Value.size] at this ⊢
      omega
    | _ => cases h

theorem Value.at?_append (root : Value) (names names' : List String) :
    root.at? (names ++ names') = (root.at? names).bind fun v ↦ v.at? names' := by
  induction names generalizing root with
  | nil => rfl
  | cons name names ih =>
    cases root with
    | obj members =>
      simp only [List.cons_append, Value.at?, Option.bind_assoc]
      exact congrArg _ (funext ih)
    | arr items =>
      simp only [List.cons_append, Value.at?, Option.bind_assoc]
      exact congrArg _ (funext fun i ↦ congrArg _ (funext ih))
    | _ => rfl

theorem position?_of_letter (xs ys : List Char) :
    position? (String.ofList (xs ++ 's' :: ys)) = none := by
  have hnone : ∀ (n : Nat) (cs : List Char), 's' ∈ cs → CoreSchema.digitsFrom 10 n cs = none := by
    intro n cs hmem
    induction cs generalizing n with
    | nil => simp at hmem
    | cons c cs ih =>
      rw [CoreSchema.digitsFrom]
      rcases List.mem_cons.1 hmem with rfl | hmem
      · rfl
      · repeat' split
        all_goals first | exact ih _ hmem | rfl
  have hnat : ∀ cs : List Char, 's' ∈ cs → CoreSchema.nat? 10 cs = none := by
    intro cs hmem
    cases cs with
    | nil => rfl
    | cons c cs => exact hnone 0 _ hmem
  have hmem : 's' ∈ xs ++ 's' :: ys := List.mem_append_right _ List.mem_cons_self
  unfold position?
  rw [String.toList_ofList]
  split
  next rest heq =>
    rw [heq] at hmem
    exact Option.filter_eq_none_iff.2 fun n hn ↦ by
      rw [hnat rest ((List.mem_cons.1 hmem).resolve_left (by decide))] at hn
      cases hn
  next =>
    exact Option.filter_eq_none_iff.2 fun n hn ↦ by
      rw [hnat _ hmem] at hn
      cases hn

theorem Value.at?_of_letter {w v : Value} {xs ys : List Char}
    (h : w.at? [String.ofList (xs ++ 's' :: ys)] = some v) :
    ∃ members, w = .obj members ∧ String.ofList (xs ++ 's' :: ys) ∈ Table.keys members := by
  cases w with
  | obj members =>
    obtain ⟨u, hu, -⟩ := Option.bind_eq_some_iff.1 h
    exact ⟨members, rfl, List.mem_map_of_mem (Table.mem_of_get? hu)⟩
  | arr items =>
    rw [Value.at?, position?_of_letter] at h
    cases h
  | _ => cases h

end Json

namespace Snapshot

variable {snapshot : Snapshot} {path : String}

theorem contains_iff {reference : String} : snapshot.contains reference ↔
    ∃ names v, Pointer.segments reference = .ok names ∧ snapshot.root.at? names = some v := by
  unfold contains lookup
  cases hnames : Pointer.segments reference with
  | error e => simp [bind, Except.bind, Except.toBool]
  | ok names =>
    cases hv : snapshot.root.at? names <;>
      simp [bind, Except.bind, Except.toBool, pure, Except.pure, hv, throw, throwThe,
        MonadExceptOf.throw]

/-- The references that are made with the ending `Base` and a number name members of one object. -/
theorem members_of_contains (snapshot : Snapshot) (path : String) :
    ∃ (members : List (String × Json.Value)) (name : List Char),
      (Json.Value.obj members).size ≤ snapshot.size ∧ ∀ n : Nat,
        snapshot.contains (path ++ "Base" ++ toString n) →
        String.ofList (name ++ 's' :: 'e' :: Nat.toDigits 10 n) ∈ Table.keys members := by
  obtain ⟨names, name, hsegments⟩ := Pointer.segments_base path
  have hparent : ∀ n : Nat, snapshot.contains (path ++ "Base" ++ toString n) →
      ∃ members, snapshot.root.at? names = some (.obj members) ∧
        String.ofList (name ++ 's' :: 'e' :: Nat.toDigits 10 n) ∈ Table.keys members := by
    intro n hn
    obtain ⟨found, v, hfound, hv⟩ := contains_iff.1 hn
    rw [Nat.toString_eq_ofList_toDigits] at hfound
    rw [hsegments _ (fun c hc ↦ Nat.isDigit_of_mem_toDigits (by decide) (by decide) hc) _ hfound,
      Json.Value.at?_append] at hv
    obtain ⟨w, hw, hv⟩ := Option.bind_eq_some_iff.1 hv
    obtain ⟨members, rfl, hmem⟩ := Json.Value.at?_of_letter hv
    exact ⟨members, hw, hmem⟩
  by_cases hany : ∃ n : Nat, snapshot.contains (path ++ "Base" ++ toString n)
  · obtain ⟨n, hn⟩ := hany
    obtain ⟨members, hmembers, -⟩ := hparent n hn
    refine ⟨members, name, snapshot.size_eq ▸ Json.Value.size_le_of_at? hmembers, fun m hm ↦ ?_⟩
    obtain ⟨members', hmembers', hmem⟩ := hparent m hm
    cases hmembers.symm.trans hmembers'
    exact hmem
  · refine ⟨[], name, snapshot.size_eq ▸ snapshot.root.size_pos, fun n hn ↦ absurd ⟨n, hn⟩ hany⟩

theorem contains_of_freeNumber? {reference : String} {steps n : Nat}
    (h : snapshot.freeNumber? reference steps n = none) {k : Nat} (hk : k < steps) :
    snapshot.contains (reference ++ toString (n + k)) := by
  induction steps generalizing n k with
  | zero => omega
  | succ steps ih =>
    rw [freeNumber?] at h
    split at h
    next hcontains =>
      cases k with
      | zero => exact hcontains
      | succ k =>
        have := ih h (k := k) (by omega)
        rwa [Nat.add_assoc, Nat.add_comm 1 k] at this
    next => cases h

theorem not_contains_of_freeNumber? {reference : String} {steps n m : Nat}
    (h : snapshot.freeNumber? reference steps n = some m) :
    ¬snapshot.contains (reference ++ toString m) := by
  induction steps generalizing n with
  | zero => cases h
  | succ steps ih =>
    rw [freeNumber?] at h
    split at h
    next => exact ih h
    next hcontains => exact Option.some.inj h ▸ hcontains

/-- There are more numbers to try than members that could have them in their names. -/
theorem freeNumber?_isSome (snapshot : Snapshot) (path : String) :
    (snapshot.freeNumber? (path ++ "Base") (snapshot.size + 1) 2).isSome := by
  rw [Option.isSome_iff_ne_none]
  intro hnone
  obtain ⟨members, name, hsize, hmembers⟩ := members_of_contains snapshot path
  have hkeys : ∀ n : Nat, n < snapshot.size + 1 →
      String.ofList (name ++ 's' :: 'e' :: Nat.toDigits 10 (2 + n)) ∈ Table.keys members :=
    fun n hn ↦ hmembers _ (contains_of_freeNumber? hnone hn)
  have hnodup : ((List.range (snapshot.size + 1)).map fun n ↦
      String.ofList (name ++ 's' :: 'e' :: Nat.toDigits 10 (2 + n))).Nodup := by
    refine List.Pairwise.map _ (fun a b hab h ↦ hab ?_) List.nodup_range
    have hdigits := List.append_cancel_left (String.ofList_inj.1 h)
    simp only [List.cons.injEq, true_and] at hdigits
    have := toDigits_injective hdigits
    omega
  have hle := List.Nodup.length_le_of_subset hnodup fun key hkey ↦ by
    obtain ⟨n, hn, rfl⟩ := List.mem_map.1 hkey
    exact hkeys n (List.mem_range.1 hn)
  have hlen := Json.length_le_sizeMembers members
  simp only [List.length_map, List.length_range, Table.keys] at hle
  simp only [Json.Value.size] at hsize
  omega

/-- The key for a type without its discriminator is the reference with the ending `Base` and digits,
and it points nowhere. -/
theorem freeReference_base (snapshot : Snapshot) (path : String) : ∃ digits : List Char,
    (∀ c ∈ digits, c.isDigit) ∧
      snapshot.freeReference (path ++ "Base") = path ++ "Base" ++ String.ofList digits ∧
      ¬snapshot.contains (snapshot.freeReference (path ++ "Base")) := by
  by_cases hcontains : snapshot.contains (path ++ "Base")
  · obtain ⟨n, hn⟩ := Option.isSome_iff_exists.1 (freeNumber?_isSome snapshot path)
    have hfree : snapshot.freeReference (path ++ "Base") = path ++ "Base" ++ toString n := by
      rw [freeReference, if_pos hcontains, hn]
    refine ⟨Nat.toDigits 10 n,
      fun c hc ↦ Nat.isDigit_of_mem_toDigits (by decide) (by decide) hc, hfree, ?_⟩
    rw [hfree]
    exact not_contains_of_freeNumber? hn
  · have hfree : snapshot.freeReference (path ++ "Base") = path ++ "Base" := by
      rw [freeReference, if_neg hcontains]
    exact ⟨[], by simp, by rw [hfree]; simp, by rwa [hfree]⟩

theorem not_contains_freeReference (snapshot : Snapshot) (path : String) :
    ¬snapshot.contains (snapshot.freeReference (path ++ "Base")) :=
  (freeReference_base snapshot path).choose_spec.2.2

theorem freeReference_injective {other : String}
    (h : snapshot.freeReference (path ++ "Base") = snapshot.freeReference (other ++ "Base")) :
    path = other := by
  obtain ⟨digits, hdigits, hpath, -⟩ := freeReference_base snapshot path
  obtain ⟨digits', hdigits', hother, -⟩ := freeReference_base snapshot other
  -- without its digits a key ends in `Base`
  have hstrip : ∀ (r : String) (ds : List Char), (∀ c ∈ ds, c.isDigit) →
      (r ++ "Base" ++ String.ofList ds).toList.reverse.dropWhile Char.isDigit =
        'e' :: 's' :: 'a' :: 'B' :: r.toList.reverse := by
    intro r ds hds
    have hrev : (r ++ "Base" ++ String.ofList ds).toList.reverse =
        ds.reverse ++ 'e' :: 's' :: 'a' :: 'B' :: r.toList.reverse := by
      simp
    rw [hrev, List.dropWhile_append_of_pos fun c hc ↦ hds c (List.mem_reverse.1 hc)]
    rfl
  have heq := hstrip path digits hdigits
  rw [← hpath, h, hother, hstrip other digits' hdigits'] at heq
  simp only [List.cons.injEq, true_and, List.reverse_inj, String.toList_inj] at heq
  exact heq.symm

end Snapshot

namespace Env

variable {env : Env} {path other : String} {plain plain' : Bool} {s t : Schema}

theorem contains_of_target (h : env.target path plain = .ok s) : env.snapshot.contains path := by
  unfold target at h
  unfold Snapshot.resolve at h
  unfold Snapshot.contains
  cases hv : env.snapshot.lookup path with
  | ok v => rfl
  | error e =>
    rw [hv] at h
    cases h

/-- No two references to schemas, with or without their discriminators, have the same key. -/
theorem aliasKey_injective (hs : env.target path plain = .ok s)
    (ht : env.target other plain' = .ok t)
    (h : env.aliasKey path plain = env.aliasKey other plain') :
    path = other ∧ plain = plain' := by
  have hfree := fun p : String ↦ env.snapshot.not_contains_freeReference p
  cases plain <;> cases plain' <;> simp only [aliasKey, if_true, Bool.false_eq_true, if_false] at h
  · exact ⟨h, rfl⟩
  · exact absurd (contains_of_target hs) (h ▸ hfree other)
  · exact absurd (contains_of_target ht) (h ▸ hfree path)
  · exact ⟨Snapshot.freeReference_injective h, rfl⟩

end Env

end ApiClient
