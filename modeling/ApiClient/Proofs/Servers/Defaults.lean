import ApiClient.Proofs.Document.Records
import ApiClient.Proofs.Operation.Addresses
import ApiClient.Proofs.Servers.Replacing
import ApiClient.Proofs.TypeScript.Calls
import ApiClient.Servers

/-!
# Defaults of servers

A server with variables gives two addresses without further values: the default address, in which
the variables are replaced one after the other, and the one that its function gives for the empty
object, in which the placeholders are filled in at once. They are the same if no replacement makes a
new placeholder and if the numbers among the defaults look the same in a template.
-/

namespace ApiClient

open TypeScript

namespace ServerVariable

/-- The text of a variable that no value is given for. -/
def shownDefault (v : ServerVariable) : String :=
  match v.default with
  | .str s => s
  | .num n => n.shown
  | .bool b => if b then "true" else "false"
  | _ => "undefined"

/-- Nothing shows if the default is a number that looks otherwise in a template. -/
theorem shownDefault_eq {v : ServerVariable} (hscalar : (defaultExpr v.default).isSome)
    (hnumber : ∀ n, v.default = .num n → n.shown = n.text) : v.shownDefault = v.defaultText := by
  unfold shownDefault defaultText
  cases hdefault : v.default with
  | str s => rfl
  | num n => exact hnumber n hdefault
  | bool b => cases b <;> simp [Json.Value.text]
  | _ => simp [hdefault, defaultExpr] at hscalar

end ServerVariable

namespace Server

/-- The variables with their defaults as they stand in the default address. -/
def defaultTexts (server : Server) : Table String :=
  server.vars.mapEntries fun _ v ↦ v.defaultText

/-- The variables with their defaults as the function of the server shows them. -/
def shownTexts (server : Server) : Table String :=
  server.vars.mapEntries fun _ v ↦ v.shownDefault

def parts (server : Server) : List (TemplatePart Expr) :=
  (Piece.split server.url.toList).map server.urlPart

/-- Replacing the variables of a server one after the other makes no placeholders, and its numbers
look the same in a template. -/
structure Plain (server : Server) : Prop where
  closing : ∀ entry ∈ server.vars, '\x7d' ∉ entry.1.toList
  opening : ∀ name ∈ placeholders server.url, '\x7b' ∉ name.toList
  defaults : ∀ entry ∈ server.vars.dropLast, '\x7b' ∉ entry.2.defaultText.toList
  numbers : ∀ entry ∈ server.vars, ∀ n, entry.2.default = .num n → n.shown = n.text

variable {server : Server}

/-- What the variables of a server are bound to. -/
def bindings (vars : Table ServerVariable) : List (Binding Expr) :=
  vars.map fun (name, v) ↦ ⟨name, toIdentifier name, defaultExpr v.default⟩

theorem callEmpty?_expr (hvars : server.vars ≠ []) : server.expr.callEmpty? =
    literalText (missing? (bindings server.vars)) (Expr.template server.parts).render := by
  have hempty : server.vars.isEmpty = false := by simpa using hvars
  rw [expr, hempty]
  rfl

theorem missing?_binding (name : String) (v : ServerVariable) :
    Binding.missing? ⟨name, toIdentifier name, defaultExpr v.default⟩ = some v.shownDefault := by
  unfold Binding.missing? ServerVariable.shownDefault
  cases v.default <;> rfl

/-- A variable whose identifier no other one has shows its own default. -/
theorem missing?_of_get? {vars : Table ServerVariable}
    (hdistinct : (vars.map fun entry ↦ toIdentifier entry.1).Nodup) {name : String}
    {v : ServerVariable} (h : Table.get? name vars = some v) :
    missing? (bindings vars) (toIdentifier name) = some v.shownDefault := by
  induction vars with
  | nil => cases h
  | cons entry rest ih =>
    obtain ⟨key, w⟩ := entry
    rw [List.map_cons, List.nodup_cons] at hdistinct
    rw [Table.get?] at h
    split at h
    next hkey =>
      obtain rfl := Option.some.inj h
      rw [missing?, bindings, List.map_cons, List.find?_cons_of_pos (by simp [hkey])]
      exact missing?_binding key w
    next hkey =>
      have hne : toIdentifier key ≠ toIdentifier name := fun heq ↦
        hdistinct.1 (List.mem_map.2 ⟨_, Table.mem_of_get? h, heq.symm⟩)
      have hrest := ih hdistinct.2 h
      rw [missing?, bindings, List.map_cons, List.find?_cons_of_neg (by simpa using hne)]
      exact hrest

/-- A placeholder becomes a hole if its name is that of a variable, and stays otherwise. -/
theorem urlPart_cases (server : Server) (cs : List Char) :
    (∃ v, Table.get? (String.ofList cs) server.vars = some v ∧
        server.urlPart (.name cs) = .hole (.ident (toIdentifier (String.ofList cs)))) ∨
      Table.get? (String.ofList cs) server.vars = none ∧
        server.urlPart (.name cs) = .text (String.ofList (Piece.source (.name cs))) := by
  cases hget : Table.get? (String.ofList cs) server.vars with
  | some v =>
    have hhas : Table.has server.vars (String.ofList cs) := by
      rw [Table.has_eq_isSome, hget]
      rfl
    exact .inl ⟨v, rfl, if_pos hhas⟩
  | none => exact .inr ⟨rfl, if_neg (Table.get?_eq_none_iff.1 hget)⟩

theorem subset_of_parts {s : String} (h : .text s ∈ server.parts) :
    s.toList ⊆ server.url.toList := by
  obtain ⟨piece, hpiece, hpart⟩ := List.mem_map.1 h
  have hsource : s.toList = piece.source := by
    cases piece with
    | text cs =>
      obtain rfl := TemplatePart.text.inj hpart
      exact String.toList_ofList
    | name cs =>
      rcases server.urlPart_cases cs with ⟨v, -, hhole⟩ | ⟨-, htext⟩
      · cases hhole.symm.trans hpart
      · obtain rfl := TemplatePart.text.inj (htext.symm.trans hpart)
        exact String.toList_ofList
  exact hsource ▸ Piece.source_subset hpiece

theorem exists_of_parts {e : Expr} (h : .hole e ∈ server.parts) :
    ∃ name v, Table.get? name server.vars = some v ∧ e = .ident (toIdentifier name) := by
  obtain ⟨piece, -, hpart⟩ := List.mem_map.1 h
  cases piece with
  | text cs => cases hpart
  | name cs =>
    rcases server.urlPart_cases cs with ⟨v, hget, hhole⟩ | ⟨-, htext⟩
    · exact ⟨_, v, hget, (TemplatePart.hole.inj (hhole.symm.trans hpart)).symm⟩
    · cases htext.symm.trans hpart

/-- The text of an expression when a server is called without values. -/
def missingText (server : Server) (e : Expr) : String :=
  (missing? (bindings server.vars) e.render).getD ""

/-- The function of a server shows the address with its placeholders filled in. -/
theorem callEmpty?_eq (hvars : server.vars ≠ [])
    (hdistinct : (server.vars.map fun entry ↦ toIdentifier entry.1).Nodup)
    (hreturn : '\r' ∉ server.url.toList) (hseamless : seamless false server.parts) :
    server.expr.callEmpty? = some (String.ofList
      ((Piece.split server.url.toList).flatMap
        (Piece.fillWith (Piece.filling server.shownTexts)))) := by
  have hhole {name : String} {v : ServerVariable} (h : Table.get? name server.vars = some v) :
      missing? (bindings server.vars) (Expr.ident (toIdentifier name)).render =
        some v.shownDefault := by
    rw [Expr.render, missing?_of_get? hdistinct h]
  have hread : readLiteral (Expr.template server.parts).render = some (itemsOf server.parts) := by
    refine readLiteral_of_seamless (fun s hs h ↦ hreturn (subset_of_parts hs h)) ?_ hseamless
    intro e he
    obtain ⟨name, v, -, rfl⟩ := exists_of_parts he
    rw [Expr.render]
    exact enclosed_of_isInert (isInert_toIdentifier name)
  have hvalue (e : Expr) (he : .hole e ∈ server.parts) :
      missing? (bindings server.vars) e.render = some (server.missingText e) := by
    obtain ⟨name, v, hget, rfl⟩ := exists_of_parts he
    rw [missingText, hhole hget]
    rfl
  rw [callEmpty?_expr hvars, literalText_of_itemsOf hread hvalue, parts, List.flatMap_map]
  congr 2
  refine List.flatMap_congr fun piece _ ↦ ?_
  cases piece with
  | text cs => exact String.toList_ofList
  | name cs =>
    rw [Piece.fillWith, Piece.filling, shownTexts, Table.get?_mapEntries]
    rcases server.urlPart_cases cs with ⟨v, hget, hpart⟩ | ⟨hget, hpart⟩
    · rw [hpart, hget, partText, missingText, hhole hget]
      rfl
    · rw [hpart, hget, partText, String.toList_ofList]
      rfl

/-! ## The default address -/

theorem defaultUrl_eq (server : Server) : server.defaultUrl =
    String.ofList (server.defaultTexts.foldl Piece.replaceName server.url.toList) := by
  rw [defaultUrl, defaultTexts, Table.mapEntries, List.foldl_map]
  rfl

theorem nodup_keys (hdistinct : (server.vars.map fun entry ↦ toIdentifier entry.1).Nodup) :
    server.vars.keys.Nodup := by
  have hmap : server.vars.keys.map toIdentifier =
      server.vars.map fun entry ↦ toIdentifier entry.1 := List.map_map
  exact (hmap ▸ hdistinct).of_map toIdentifier

theorem Plain.defaultUrl (h : server.Plain) (hkeys : server.vars.keys.Nodup) :
    server.defaultUrl = String.ofList ((Piece.split server.url.toList).flatMap
      (Piece.fillWith (Piece.filling server.defaultTexts))) := by
  have hsame : server.defaultTexts.keys = server.vars.keys := Table.keys_mapEntries _ _
  rw [defaultUrl_eq, Piece.foldl_replaceName (hsame ▸ hkeys)]
  · rw [hsame]
    intro name hname
    obtain ⟨entry, hentry, rfl⟩ := List.mem_map.1 hname
    exact h.closing entry hentry
  · intro inside hinside
    have hname := h.opening (String.ofList inside) (mem_placeholders.2 (by simpa using hinside))
    simpa using hname
  · intro entry hentry
    rw [defaultTexts, Table.mapEntries, ← List.map_dropLast] at hentry
    obtain ⟨var, hvar, rfl⟩ := List.mem_map.1 hentry
    exact h.defaults var hvar

theorem Plain.shownTexts (h : server.Plain)
    (hscalar : ∀ entry ∈ server.vars, (defaultExpr entry.2.default).isSome) :
    server.shownTexts = server.defaultTexts :=
  Table.mapEntries_congr fun entry hentry ↦
    ServerVariable.shownDefault_eq (hscalar entry hentry) (h.numbers entry hentry)

/-- A server that is called without values shows its address with each placeholder of a variable
filled in once, and this is the default address if no replacement makes a placeholder and the
numbers among the defaults look the same in a template. -/
theorem defaultUrl_of_call {server : Server} (hvars : server.vars ≠ [])
    (hscalar : ∀ entry ∈ server.vars, (defaultExpr entry.2.default).isSome)
    (hdistinct : (server.vars.map fun entry ↦ toIdentifier entry.1).Nodup)
    (hreturn : '\r' ∉ server.url.toList) (hseamless : seamless false server.parts) :
    ∃ out, Piece.Filled (Piece.filling server.shownTexts) server.url.toList out ∧
      server.expr.callEmpty? = some (String.ofList out) ∧
      (server.Plain → server.defaultUrl = String.ofList out) := by
  refine ⟨_, Piece.filled_split _ _, callEmpty?_eq hvars hdistinct hreturn hseamless, fun h ↦ ?_⟩
  rw [h.defaultUrl (nodup_keys hdistinct), h.shownTexts hscalar]

end Server

namespace TwoServers

/-- The default of the first variable is a placeholder of the second one. -/
def crossed : Server where
  url := "\x7ba\x7d/\x7bb\x7d"
  vars := [("a", { default := .str "\x7bb\x7d" }), ("b", { default := .str "x" })]

def ported : Server where
  url := "https://localhost:\x7bport\x7d/v1"
  vars := [("port", { default := .num (.int 8080) })]

theorem split_crossed :
    Piece.split crossed.url.toList = [.name ['a'], .text ['/'], .name ['b']] := by
  have hfirst : Piece.first? crossed.url.toList = some ([], ['a'], "/\x7bb\x7d".toList) := by
    decide +kernel
  have hsecond : Piece.first? "/\x7bb\x7d".toList = some (['/'], ['b'], []) := by decide +kernel
  have hrest : Piece.first? [] = none := rfl
  rw [Piece.split_of_first? hfirst, Piece.split_of_first? hsecond,
    Piece.split_of_first?_eq_none hrest]
  rfl

theorem split_ported : Piece.split ported.url.toList =
    [.text "https://localhost:".toList, .name "port".toList, .text "/v1".toList] := by
  have hfirst : Piece.first? ported.url.toList =
      some ("https://localhost:".toList, "port".toList, "/v1".toList) := by
    decide +kernel
  have hrest : Piece.first? "/v1".toList = none := by decide +kernel
  rw [Piece.split_of_first? hfirst, Piece.split_of_first?_eq_none hrest]
  rfl

theorem plain_ported : ported.Plain where
  closing := by decide
  opening := by
    rw [placeholders, split_ported]
    decide
  defaults := by decide
  numbers := by
    intro entry hentry n hn
    obtain rfl := List.mem_singleton.1 hentry
    obtain rfl := Json.Value.num.inj hn
    exact Json.Number.shown_int (by decide)

end TwoServers

/-- The default of a variable can be taken for a placeholder. -/
theorem crossed_defaults :
    TwoServers.ported.expr.callEmpty? = some TwoServers.ported.defaultUrl ∧
      TwoServers.crossed.expr.callEmpty? = some "\x7bb\x7d/x" ∧
      TwoServers.crossed.defaultUrl = "x/x" := by
  obtain ⟨out, -, hcall, hplain⟩ := @Server.defaultUrl_of_call TwoServers.ported
    (by simp [TwoServers.ported]) (by simp [TwoServers.ported, defaultExpr])
    (by simp [TwoServers.ported]) (by decide) (by rw [Server.parts, TwoServers.split_ported]; rfl)
  obtain ⟨filled, hfilled, hcrossed, -⟩ := @Server.defaultUrl_of_call TwoServers.crossed
    (by simp [TwoServers.crossed]) (by simp [TwoServers.crossed, defaultExpr])
    (by decide +kernel) (by decide) (by rw [Server.parts, TwoServers.split_crossed]; rfl)
  refine ⟨by rw [hcall, hplain TwoServers.plain_ported], ?_, by decide +kernel⟩
  rw [hcrossed, hfilled.eq, TwoServers.split_crossed]
  rfl

end ApiClient
