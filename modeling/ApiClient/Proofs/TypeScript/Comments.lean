import Mathlib.Data.List.Chain
import ApiClient.ClientModule

/-!
# Comments

A comment ends at the first star with a slash behind it. Escaping leaves no such place in a text,
and none comes up where texts are set side by side, because each line of a comment begins with a
blank and ends with a line end. So the only end of a comment is the one that is put there.
-/

namespace ApiClient.TypeScript

/-- No star has a slash behind it. -/
def Unclosed (cs : List Char) : Prop :=
  cs.IsChain fun a b ↦ ¬(a = '*' ∧ b = '/')

instance (cs : List Char) : Decidable (Unclosed cs) :=
  inferInstanceAs (Decidable (List.IsChain _ _))

/-- There is one star with a slash behind it, at the end of the last line. -/
def ClosedOnce (s : String) : Prop :=
  (∃ before, s.toList = before ++ ['*', '/', '\n']) ∧
    ∀ before after, s.toList = before ++ '*' :: '/' :: after → after = ['\n']

section

variable {c : Char} {cs ds : List Char}

theorem Unclosed.cons (h : Unclosed cs) (hc : c ≠ '*') : Unclosed (c :: cs) :=
  List.isChain_cons.2 ⟨fun _ _ hpair ↦ hc hpair.1, h⟩

theorem Unclosed.append_cons (hcs : Unclosed cs) (hds : Unclosed (c :: ds)) (hc : c ≠ '/') :
    Unclosed (cs ++ c :: ds) := by
  refine List.isChain_append.2 ⟨hcs, hds, ?_⟩
  rintro _ _ _ hhead ⟨-, rfl⟩
  exact hc (Option.some_inj.1 hhead)

theorem not_unclosed (before after : List Char) : ¬Unclosed (before ++ '*' :: '/' :: after) := by
  intro h
  have hend := (List.isChain_append.1 h).2.1
  exact (List.isChain_cons_cons.1 hend).1 ⟨rfl, rfl⟩

/-! ## Texts in comments -/

theorem head?_escapeComment (cs : List Char) : (escapeComment cs).head? = cs.head? := by
  unfold escapeComment
  split <;> rfl

theorem unclosed_escapeComment (cs : List Char) : Unclosed (escapeComment cs) := by
  fun_induction escapeComment cs with
  | case1 rest ih =>
    have hslash : Unclosed ('/' :: escapeComment rest) := ih.cons (by decide)
    have hstar : Unclosed ['*'] := by decide
    exact hstar.append_cons (hslash.cons (by decide)) (by decide)
  | case2 c rest hpair ih =>
    refine List.isChain_cons.2 ⟨fun d hd ↦ ?_, ih⟩
    rw [head?_escapeComment] at hd
    obtain ⟨after, rfl⟩ := List.head?_eq_some_iff.1 hd
    exact fun ⟨hc, hd⟩ ↦ hpair after hc (congrArg (· :: after) hd)
  | case3 => exact .nil

/-- What stands between the beginning and the end of a line does not matter. -/
theorem Unclosed.line (h : Unclosed cs) : Unclosed (' ' :: '*' :: ' ' :: (cs ++ ['\n'])) := by
  have htext : Unclosed (' ' :: (cs ++ ['\n'])) :=
    (h.append_cons (by decide) (by decide)).cons (by decide)
  have hstar : Unclosed [' ', '*'] := by decide
  exact hstar.append_cons htext (by decide)

theorem unclosed_commentLine (line : List Char) : Unclosed (commentLine line) := by
  unfold commentLine
  split
  next => decide
  next => exact (unclosed_escapeComment _).line

theorem exists_commentLine (line : List Char) : ∃ text, commentLine line = ' ' :: text := by
  unfold commentLine
  split <;> exact ⟨_, rfl⟩

theorem Unclosed.append_commentLine (h : Unclosed cs) (line : List Char) :
    Unclosed (cs ++ commentLine line) := by
  have hline := unclosed_commentLine line
  obtain ⟨text, htext⟩ := exists_commentLine line
  rw [htext] at hline ⊢
  exact h.append_cons hline (by decide)

theorem Unclosed.append_commentLines (h : Unclosed cs) (lines : List (List Char)) :
    Unclosed (cs ++ lines.flatMap commentLine) := by
  induction lines generalizing cs with
  | nil =>
    rw [List.flatMap_nil, List.append_nil]
    exact h
  | cons line lines ih =>
    rw [List.flatMap_cons, ← List.append_assoc]
    exact ih (h.append_commentLine line)

/-- A star with a slash behind it does not lie within an unclosed text. -/
theorem Unclosed.length_lt (h : Unclosed cs) {before after : List Char}
    (heq : cs ++ ds = before ++ '*' :: '/' :: after) : after.length < ds.length := by
  by_contra hle
  have hends : ds <:+ cs ++ ds := List.suffix_append cs ds
  have hafter : after <:+ cs ++ ds := heq ▸ ⟨before ++ ['*', '/'], by simp⟩
  obtain ⟨inner, rfl⟩ := List.suffix_of_suffix_length_le hends hafter (Nat.le_of_not_lt hle)
  rw [← List.cons_append, ← List.cons_append, ← List.append_assoc] at heq
  exact not_unclosed before inner (List.append_cancel_right heq ▸ h)

/-- The end that is put behind an unclosed text is its only one. -/
theorem closedOnce_of_unclosed {s : String} (h : Unclosed s.toList) :
    ClosedOnce (s ++ " */\n") := by
  have hbody : Unclosed (s.toList ++ [' ', '*']) := h.append_cons (by decide) (by decide)
  have hchars : (s ++ " */\n").toList = (s.toList ++ [' ', '*']) ++ ['/', '\n'] := by
    rw [String.toList_append, List.append_assoc]
    rfl
  rw [ClosedOnce, hchars]
  refine ⟨⟨s.toList ++ [' '], by simp⟩, fun before after heq ↦ ?_⟩
  have hlength := hbody.length_lt heq
  have hlast := congrArg List.getLast? heq
  match after with
  | [] => simp at hlast
  | [c] => simpa [eq_comm] using hlast
  | _ :: _ :: _ =>
    rw [List.length_cons, List.length_cons] at hlength
    exact absurd hlength (by simp)

end

theorem closedOnce_renderDoc (doc : String) : ClosedOnce (renderDoc doc) := by
  have hopening : Unclosed ['/', '*', '*', '\n'] := by decide
  rw [renderDoc]
  refine closedOnce_of_unclosed ?_
  rw [String.toList_append, String.toList_ofList, String.toList_ofList]
  exact hopening.append_commentLines _

end ApiClient.TypeScript

namespace ApiClient

open TypeScript

theorem closedOnce_headerComment (info : Info) : ClosedOnce (headerComment info) := by
  have hopening : Unclosed "/**\n".toList := by decide
  have hnote : Unclosed
      " * DO NOT MODIFY - This file has been generated using apigen.\n".toList := by
    decide +kernel
  have hline {s : String} (hs : Unclosed s.toList) (t : String) :
      Unclosed (s ++ (" * " ++ String.ofList (escapeComment t.toList) ++ "\n")).toList := by
    have hchars : (s ++ (" * " ++ String.ofList (escapeComment t.toList) ++ "\n")).toList =
        s.toList ++ ' ' :: '*' :: ' ' :: (escapeComment t.toList ++ ['\n']) := by
      simp
    rw [hchars]
    exact hs.append_cons (unclosed_escapeComment t.toList).line (by decide)
  have hend : " * DO NOT MODIFY - This file has been generated using apigen.\n */\n" =
      " * DO NOT MODIFY - This file has been generated using apigen.\n" ++ " */\n" := by
    decide +kernel
  simp only [headerComment]
  rw [hend, ← String.append_assoc]
  refine closedOnce_of_unclosed ?_
  rw [String.toList_append]
  exact (hline (hline hopening info.title) info.version).append_cons hnote (by decide)

/-- Comments end where they are meant to, whatever a document says in its texts. -/
theorem comments_closed_once :
    (∀ doc, ClosedOnce (renderDoc doc)) ∧ ∀ info, ClosedOnce (headerComment info) :=
  ⟨closedOnce_renderDoc, closedOnce_headerComment⟩

end ApiClient
