import ApiClient.Proofs.Document.Records
import ApiClient.Proofs.Text.Numbers
import ApiClient.Proofs.TypeScript.TypesReadBack
import ApiClient.Servers

/-!
# Keys of servers

The servers of a module are the members of one object. A server with a description has the camel
case of that for its key, and any other server has its number. Nothing is done about a key that is
there already, so the keys are distinct only if the descriptions keep them apart. Otherwise the
object has fewer members than there are servers, because of two members with one key the later one
replaces the earlier one.
-/

namespace ApiClient

/-- What a function finds in a list is distinct exactly if it finds nothing at two places. -/
theorem nodup_filterMap_iff {α β : Type} {f : α → Option β} {l : List α} :
    (l.filterMap f).Nodup ↔
      ∀ (i j : Nat) (b : β), l[i]?.bind f = some b → l[j]?.bind f = some b → i = j := by
  rw [List.Nodup, List.pairwise_filterMap, List.pairwise_iff_getElem]
  constructor
  · intro h i j b hi hj
    obtain ⟨x, hx, hfx⟩ := Option.bind_eq_some_iff.1 hi
    obtain ⟨y, hy, hfy⟩ := Option.bind_eq_some_iff.1 hj
    obtain ⟨hilt, rfl⟩ := List.getElem?_eq_some_iff.1 hx
    obtain ⟨hjlt, rfl⟩ := List.getElem?_eq_some_iff.1 hy
    rcases Nat.lt_trichotomy i j with hlt | heq | hgt
    · exact absurd rfl (h i j hilt hjlt hlt b hfx b hfy)
    · exact heq
    · exact absurd rfl (h j i hjlt hilt hgt b hfy b hfx)
  · intro h i j hi hj hlt b hb b' hb' heq
    subst heq
    refine hlt.ne (h i j b ?_ ?_)
    · rw [List.getElem?_eq_getElem hi, Option.bind_some, hb]
    · rw [List.getElem?_eq_getElem hj, Option.bind_some, hb']

namespace TypeScript

/-- A key is read back as one token, and the name can be told from that. -/
theorem propertyKey_injective : Function.Injective propertyKey := by
  intro s t h
  have hs := (lexes_propertyKey s).lex_eq
  have ht := (lexes_propertyKey t).lex_eq
  rw [h, ht, Option.some.injEq, List.singleton_inj] at hs
  unfold keyToken at hs
  split at hs <;> split at hs
  · exact (Token.word.inj hs).symm
  · cases hs
  · cases hs
  · exact (Token.text.inj hs).symm

end TypeScript

open TypeScript

namespace Server

/-- What the server at a position is called: the camel case of its description, or a number. -/
def callName (server : Server) (i : Nat) : String :=
  server.description.elim ("server" ++ toString (i + 1)) Text.camelCase

theorem key_eq (server : Server) (i : Nat) : server.key i = propertyKey (server.callName i) :=
  rfl

theorem callName_of_some {server : Server} {d : String} (h : server.description = some d)
    (i : Nat) : server.callName i = Text.camelCase d := by
  rw [callName, h, Option.elim_some]

theorem callName_of_none {server : Server} (h : server.description = none) (i : Nat) :
    server.callName i = "server" ++ toString (i + 1) := by
  rw [callName, h, Option.elim_none]

end Server

/-- The camel cases of the descriptions of servers. -/
def describedNames (servers : List Server) : List String :=
  servers.filterMap fun server ↦ server.description.map Text.camelCase

/-- The descriptions of servers keep their keys apart: no two of them have one camel case, and none
has the number of a server without a description for its camel case. -/
structure DescriptionsApart (servers : List Server) : Prop where
  descriptions : (describedNames servers).Nodup
  numbers : ∀ (i : Nat) (server : Server), servers[i]? = some server →
    server.description = none → "server" ++ toString (i + 1) ∉ describedNames servers

section

variable {servers : List Server}

theorem keys_serverEntries (servers : List Server) : Table.keys (serverEntries servers) =
    (servers.zipIdx.filterMap fun entry ↦ some (entry.1.callName entry.2)).map propertyKey := by
  rw [serverEntries, Table.keys, List.map_map, List.map_filterMap, ← List.filterMap_eq_map]
  rfl

theorem nodup_keys_serverEntries_iff : (Table.keys (serverEntries servers)).Nodup ↔
    ∀ (i j : Nat) (server other : Server), servers[i]? = some server →
      servers[j]? = some other → server.callName i = other.callName j → i = j := by
  rw [keys_serverEntries, List.nodup_map_iff propertyKey_injective, nodup_filterMap_iff]
  simp only [List.getElem?_zipIdx, Nat.zero_add, Option.bind_map, Function.comp_def,
    Option.bind_eq_some_iff, Option.some.injEq]
  constructor
  · intro h i j server other hi hj heq
    exact h i j _ ⟨server, hi, heq⟩ ⟨other, hj, rfl⟩
  · rintro h i j name ⟨server, hi, rfl⟩ ⟨other, hj, heq⟩
    exact h i j server other hi hj heq.symm

theorem mem_describedNames_iff {name : String} : name ∈ describedNames servers ↔
    ∃ (i : Nat) (server : Server) (d : String), servers[i]? = some server ∧
      server.description = some d ∧ Text.camelCase d = name := by
  rw [describedNames, List.mem_filterMap]
  constructor
  · rintro ⟨server, hserver, hname⟩
    obtain ⟨i, hi⟩ := List.mem_iff_getElem?.1 hserver
    obtain ⟨d, hd, hname⟩ := Option.map_eq_some_iff.1 hname
    exact ⟨i, server, d, hi, hd, hname⟩
  · rintro ⟨i, server, d, hi, hd, rfl⟩
    exact ⟨server, List.mem_iff_getElem?.2 ⟨i, hi⟩, by rw [hd, Option.map_some]⟩

theorem DescriptionsApart.nodup (h : DescriptionsApart servers) :
    (Table.keys (serverEntries servers)).Nodup := by
  rw [nodup_keys_serverEntries_iff]
  intro i j server other hi hj heq
  have hdescribed {k : Nat} {s : Server} {d : String} (hk : servers[k]? = some s)
      (hd : s.description = some d) : servers[k]?.bind
        (fun s ↦ s.description.map Text.camelCase) = some (Text.camelCase d) := by
    rw [hk, Option.bind_some, hd, Option.map_some]
  cases hserver : server.description with
  | some d =>
    rw [Server.callName_of_some hserver] at heq
    cases hother : other.description with
    | some e =>
      rw [Server.callName_of_some hother] at heq
      exact nodup_filterMap_iff.1 h.descriptions i j _ (hdescribed hi hserver)
        (heq ▸ hdescribed hj hother)
    | none =>
      rw [Server.callName_of_none hother] at heq
      exact absurd (mem_describedNames_iff.2 ⟨i, server, d, hi, hserver, heq⟩)
        (h.numbers j other hj hother)
  | none =>
    rw [Server.callName_of_none hserver] at heq
    cases hother : other.description with
    | some e =>
      rw [Server.callName_of_some hother] at heq
      exact absurd (mem_describedNames_iff.2 ⟨j, other, e, hj, hother, heq.symm⟩)
        (h.numbers i server hi hserver)
    | none =>
      rw [Server.callName_of_none hother] at heq
      exact Nat.succ.inj (Text.number_injective heq)

theorem descriptionsApart_of_nodup (h : (Table.keys (serverEntries servers)).Nodup) :
    DescriptionsApart servers := by
  rw [nodup_keys_serverEntries_iff] at h
  constructor
  · rw [describedNames, nodup_filterMap_iff]
    intro i j name hi hj
    obtain ⟨server, hserver, hname⟩ := Option.bind_eq_some_iff.1 hi
    obtain ⟨other, hother, hname'⟩ := Option.bind_eq_some_iff.1 hj
    obtain ⟨d, hd, rfl⟩ := Option.map_eq_some_iff.1 hname
    obtain ⟨e, he, heq⟩ := Option.map_eq_some_iff.1 hname'
    refine h i j server other hserver hother ?_
    rw [Server.callName_of_some hd, Server.callName_of_some he, heq]
  · intro i server hi hnone hmem
    obtain ⟨j, other, d, hj, hd, hname⟩ := mem_describedNames_iff.1 hmem
    have hij := h i j server other hi hj (by
      rw [Server.callName_of_none hnone, Server.callName_of_some hd, hname])
    -- one server cannot have a description and none
    subst hij
    obtain rfl := Option.some.inj (hi.symm.trans hj)
    rw [hnone] at hd
    cases hd

end

/-- The keys of the servers are distinct exactly if their descriptions keep them apart. The object
that they are the members of has each of them exactly if the keys are distinct, and else it has
fewer members. -/
theorem server_keys_distinct_iff (servers : List Server) :
    ((Table.keys (serverEntries servers)).Nodup ↔ DescriptionsApart servers) ∧
    (Table.ofPairs (serverEntries servers) = serverEntries servers ↔
      (Table.keys (serverEntries servers)).Nodup) := by
  refine ⟨⟨descriptionsApart_of_nodup, DescriptionsApart.nodup⟩, fun h ↦ ?_,
    Table.ofPairs_of_nodup⟩
  rw [← h]
  exact Table.nodup_ofPairs _

namespace Staging

def plain : Server := { url := "https://example.com/v1" }

def small : Server := { url := "https://staging.example.com/v1", description := some "staging" }

def capital : Server := { url := "https://staging.example.com/v2", description := some "Staging" }

def second : Server := { url := "https://example.com/v2", description := some "Server 2" }

end Staging

/-- Two descriptions differ in a capital only, or a description is the number of another server, and
one of the two servers is not in the object. -/
theorem staging_listed_twice :
    Table.ofPairs (serverEntries [Staging.plain, Staging.small]) =
      serverEntries [Staging.plain, Staging.small] ∧
    ¬(Table.keys (serverEntries [Staging.small, Staging.capital])).Nodup ∧
    Table.ofPairs (serverEntries [Staging.small, Staging.capital]) ≠
      serverEntries [Staging.small, Staging.capital] ∧
    ¬(Table.keys (serverEntries [Staging.second, Staging.plain])).Nodup := by
  obtain ⟨happart, hobject⟩ := server_keys_distinct_iff [Staging.plain, Staging.small]
  obtain ⟨halike, hlost⟩ := server_keys_distinct_iff [Staging.small, Staging.capital]
  have hdistinct : DescriptionsApart [Staging.plain, Staging.small] := by
    constructor
    · decide +kernel
    · intro i server hi hnone
      match i with
      | 0 => decide +kernel
      | 1 => cases hi; cases hnone
  have hsame : ¬DescriptionsApart [Staging.small, Staging.capital] := fun h ↦
    absurd h.descriptions (by decide +kernel)
  have hnumber : ¬DescriptionsApart [Staging.second, Staging.plain] := fun h ↦
    absurd (h.numbers 1 Staging.plain rfl rfl) (by decide +kernel)
  exact ⟨hobject.2 (happart.2 hdistinct), halike.not.2 hsame, (hlost.trans halike).not.2 hsame,
    (server_keys_distinct_iff _).1.not.2 hnumber⟩

end ApiClient
