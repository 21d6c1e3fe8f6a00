import ApiClient.Proofs.Operation.Arguments
import ApiClient.Proofs.Operation.Filling
import ApiClient.Proofs.TypeScript.Templates

/-!
# Addresses of requests

The address of a request is written as a literal. When it is read, it is the path with the encoded
arguments in the places of the placeholders, and the query string behind it. Two texts never stand
side by side in its template, so nothing in the path can open a hole. Of the names and the query it
is only asked that they are code that closes what it opens. The names of arguments are, and so is
what is printed for the query of a function.
-/

namespace ApiClient

open TypeScript

/-! ## Names and queries of functions -/

theorem isInert_append {s t : String} (hs : IsInert s) (ht : IsInert t) : IsInert (s ++ t) := by
  intro c hc
  rw [String.toList_append] at hc
  rcases List.mem_append.1 hc with hc | hc
  · exact hs c hc
  · exact ht c hc

theorem Parameters.isInert_of_mem_argumentNames {params : List Parameter} {x : String}
    (hx : x ∈ argumentNames params) : IsInert x := by
  obtain ⟨taken, p, -, rfl⟩ := exists_argumentName_of_mem hx
  by_cases htaken : toIdentifier p.name ∈ taken
  · rw [argumentName_of_mem htaken]
    refine isInert_append (isInert_toIdentifier _) ?_
    cases p.location <;> decide
  · rw [argumentName_of_not_mem htaken]
    exact isInert_toIdentifier _

theorem spelled_of_queryExpr {params : List (Parameter × String)} {e : Expr}
    (he : e ∈ queryExpr params) (hparams : ∀ entry ∈ params, IsInert entry.2) : e.Spelled := by
  obtain rfl := queryExpr_eq_some he
  have hhelper (name : String) (args : List Expr) (hname : IsInert name)
      (hargs : ∀ e ∈ args, e.Spelled) : (Expr.apply (.path "QS" name) args).Spelled := by
    have hcallee : (Expr.path "QS" name).Spelled := by
      rw [Expr.path, Expr.Spelled, Expr.Spelled]
      exact ⟨by decide, hname⟩
    rw [Expr.apply, Expr.Spelled]
    exact ⟨hcallee, by simp, spelledExprs_iff.2 hargs⟩
  refine hhelper _ _ (by decide) fun e he ↦ ?_
  obtain ⟨⟨format, group⟩, hgroup, rfl⟩ := List.mem_map.1 he
  refine hhelper _ _ (by cases format <;> decide) ?_
  rw [List.forall_mem_singleton, Expr.Spelled, spelledEntries_iff]
  intro entry hentry
  obtain ⟨⟨p, arg⟩, hp, rfl⟩ := List.mem_map.1 hentry
  have hmember : group = params.filter fun entry ↦ QueryFormat.of entry.1 == format :=
    (groupsOf_queryGroups params).members _ hgroup
  rw [hmember] at hp
  have harg : (Expr.ident arg).Spelled := by
    rw [Expr.Spelled]
    exact hparams _ (List.mem_filter.1 hp).1
  exact harg

/-! ## Templates of paths -/

open Piece (placeholderInduction split_append split_of_first?_eq_none)

theorem seamless_ofText {f : Piece → TemplatePart Expr}
    (htext : ∀ cs, f (.text cs) = .text (String.ofList cs)) (cs : List Char)
    {parts : List (TemplatePart Expr)} (hparts : ∀ s, parts.head? ≠ some (.text s))
    (h : seamless false parts) : seamless false ((Piece.ofText cs).map f ++ parts) := by
  cases cs with
  | nil => exact h
  | cons c cs =>
    have hof : Piece.ofText (c :: cs) = [.text (c :: cs)] := rfl
    rw [hof, List.map_singleton, htext, List.singleton_append]
    cases parts with
    | nil => simp [seamless]
    | cons part parts =>
      cases part with
      | text s => exact absurd rfl (hparts s)
      | hole e => simpa [seamless] using h

/-- Between two texts of a path there is a placeholder. -/
theorem seamless_split {f : Piece → TemplatePart Expr}
    (htext : ∀ cs, f (.text cs) = .text (String.ofList cs))
    (hname : ∀ cs, ∃ e, f (.name cs) = .hole e) (cs : List Char) (query : Option Expr) :
    seamless false ((Piece.split cs).map f ++ (query.map .hole).toList) := by
  have hhole (e : Expr) (parts : List (TemplatePart Expr)) (h : seamless false parts) :
      seamless false (.hole e :: parts) := by
    rwa [seamless]
  induction cs using placeholderInduction with
  | done cs hfirst _ =>
    rw [split_of_first?_eq_none hfirst]
    cases query with
    | none => exact seamless_ofText htext cs (by simp) rfl
    | some e => exact seamless_ofText htext cs (by simp) (hhole e [] rfl)
  | fill before inside after hbefore hinside ih =>
    obtain ⟨e, he⟩ := hname inside
    rw [split_append hbefore hinside, List.map_append, List.map_cons, he, List.append_assoc]
    exact seamless_ofText htext before (by simp) (hhole e _ ih)

namespace Operation

open Parameters (located)

/-- The code that encodes the argument for a placeholder. -/
def encodedArg (params : List (Parameter × String)) (name : List Char) : String :=
  "encodeURIComponent(" ++ placeholderArg params (String.ofList name) ++ ")"

theorem exists_urlPart_name (params : List (Parameter × String)) (name : List Char) :
    ∃ e, urlPart params (.name name) = .hole e ∧ e.render = encodedArg params name := by
  refine ⟨_, rfl, ?_⟩
  simp only [Expr.apply, Expr.render, renderExprs, Text.join_singleton, List.isEmpty_nil, if_true,
    String.append_empty]
  rfl

theorem enclosed_encodedArg {params : List (Parameter × String)}
    (hparams : ∀ entry ∈ params, Enclosed entry.2) (name : List Char) :
    Enclosed (encodedArg params name) := by
  have hopening : Enclosed "encodeURIComponent(" := by decide
  refine (hopening.append ?_).append (by decide)
  rcases placeholderArg_eq params (String.ofList name) with ⟨entry, hentry, -, harg⟩ | ⟨-, harg⟩
  · exact harg ▸ hparams entry hentry
  · exact harg ▸ enclosed_of_isInert (isInert_toIdentifier _)

variable {path : String} {params : List (Parameter × String)} {query : Option Expr}

theorem notMem_return_of_urlPart (hreturn : '\r' ∉ path.toList) {s : String}
    (hs : .text s ∈ (Piece.split path.toList).map (urlPart params) ++
      (query.map .hole).toList) : '\r' ∉ s.toList := by
  rcases List.mem_append.1 hs with hs | hs
  · obtain ⟨piece, hpiece, hpart⟩ := List.mem_map.1 hs
    cases piece with
    | name name => cases hpart
    | text cs =>
      obtain rfl := TemplatePart.text.inj hpart
      rw [String.toList_ofList]
      exact fun h ↦ hreturn (Piece.source_subset hpiece h)
  · cases query <;> simp at hs

theorem enclosed_of_urlPart (hparams : ∀ entry ∈ params, Enclosed entry.2)
    (hquery : ∀ e ∈ query, Enclosed e.render) {e : Expr}
    (he : .hole e ∈ (Piece.split path.toList).map (urlPart params) ++
      (query.map .hole).toList) : Enclosed e.render := by
  rcases List.mem_append.1 he with he | he
  · obtain ⟨piece, hpiece, hpart⟩ := List.mem_map.1 he
    cases piece with
    | text cs => cases hpart
    | name name =>
      obtain ⟨e', he', hrender⟩ := exists_urlPart_name params name
      obtain rfl := TemplatePart.hole.inj (he'.symm.trans hpart)
      exact hrender ▸ enclosed_encodedArg hparams name
  · obtain ⟨q, hq, hqe⟩ := Option.map_eq_some_iff.1 (Option.mem_toList.1 he)
    obtain rfl := TemplatePart.hole.inj hqe
    exact hquery _ hq

theorem flatMap_urlPart (value : String → String) (pieces : List Piece) :
    (pieces.map (urlPart params)).flatMap (partText fun e ↦ value e.render) =
      pieces.flatMap (Piece.fillWith fun name ↦ (value (encodedArg params name)).toList) := by
  rw [List.flatMap_map]
  refine List.flatMap_congr fun piece _ ↦ ?_
  cases piece with
  | text cs => exact String.toList_ofList
  | name name =>
    obtain ⟨e, he, hrender⟩ := exists_urlPart_name params name
    rw [he, partText, hrender]
    rfl

/-- What is read in the text of an address is the path with the values of the encoded arguments in
the places of its placeholders, and the value of the query behind it. -/
theorem literalText_urlExpr (hreturn : '\r' ∉ path.toList) (params : List Parameter)
    {names : List String} (hnames : ∀ name ∈ names, Enclosed name)
    (hquery : ∀ e ∈ query, Enclosed e.render) (value : String → String) :
    ∃ out, Piece.Filled (fun name ↦ (value (encodedArg (located params names .path) name)).toList)
        path.toList out ∧
      literalText (fun code ↦ some (value code))
          (urlExpr path (located params names .path) query).render =
        some (String.ofList out ++ query.elim "" fun e ↦ value e.render) := by
  have hparams : ∀ entry ∈ located params names .path, Enclosed entry.2 := fun entry hentry ↦
    hnames _ (List.of_mem_zip (List.mem_filter.1 hentry).1).2
  refine ⟨_, Piece.filled_split _ _, ?_⟩
  have hread := readLiteral_of_seamless (fun s ↦ notMem_return_of_urlPart hreturn)
    (fun e ↦ enclosed_of_urlPart hparams hquery)
    (seamless_split (fun _ ↦ rfl) (fun name ↦ ⟨_, rfl⟩) path.toList query)
  have hvalue := @literalText_of_itemsOf (fun code ↦ some (value code)) (fun e ↦ value e.render) _ _
    hread fun e _ ↦ rfl
  rw [urlExpr, hvalue, List.flatMap_append, flatMap_urlPart]
  cases query with
  | none => simp
  | some e => simp [partText]

end Operation

namespace TaggedPet

def petId : Parameter where
  name := "pet-id"
  location := .path
  required := true

def tag : Parameter where
  name := "tag"
  location := .query

def params : List Parameter := [tag, petId]

/-- What stands in front of the placeholder and behind it would open a hole if it were written as
it is. -/
def path : String := "/$\\\x60é/\x7bpet-id\x7d/$\x7b"

def names : List String := Parameters.argumentNames params

def query : Option Expr :=
  queryExpr (Parameters.located params names .query)

def value (code : String) : String :=
  if code = "encodeURIComponent(petId)" then "7" else "?tag=x"

theorem enclosed_query {e : Expr} (he : e ∈ query) : Enclosed e.render := by
  refine e.enclosed (spelled_of_queryExpr he fun entry hentry ↦ ?_)
  have hzip := List.of_mem_zip (List.mem_filter.1 hentry).1
  exact Parameters.isInert_of_mem_argumentNames hzip.2

theorem encodedArg_petId : Operation.encodedArg (Parameters.located params names .path)
    "pet-id".toList = "encodeURIComponent(petId)" := by
  decide +kernel

end TaggedPet

/-- Signs of a template are read as they stand in a path. -/
theorem tagged_pet_address :
    literalText (fun code ↦ some (TaggedPet.value code))
      (Operation.urlExpr TaggedPet.path
        (Parameters.located TaggedPet.params TaggedPet.names .path) TaggedPet.query).render =
      some "/$\\\x60é/7/$\x7b?tag=x" := by
  obtain ⟨out, hfilled, hread⟩ := @Operation.literalText_urlExpr TaggedPet.path TaggedPet.query
    (by decide) TaggedPet.params TaggedPet.names
    (fun name hname ↦ enclosed_of_isInert (Parameters.isInert_of_mem_argumentNames hname))
    (fun e he ↦ TaggedPet.enclosed_query he) TaggedPet.value
  have hfirst : Piece.first? TaggedPet.path.toList =
      some ("/$\\\x60é/".toList, "pet-id".toList, "/$\x7b".toList) := by
    decide +kernel
  have hrest : Piece.first? "/$\x7b".toList = none := by decide +kernel
  have hout : out = "/$\\\x60é/7/$\x7b".toList := by
    rw [hfilled.eq, Piece.split_of_first? hfirst, Piece.split_of_first?_eq_none hrest,
      List.flatMap_append, List.flatMap_cons, Piece.fillWith, TaggedPet.encodedArg_petId]
    rfl
  rw [hread, hout]
  rfl

end ApiClient
