import ApiClient.Proofs.Document.AsciiDocuments
import ApiClient.Proofs.Operation.DeepObjects
import ApiClient.Proofs.Operation.Invariants
import ApiClient.Proofs.Operation.Resolved

/-!
# Operations of ASCII documents

The parts of an operation in an ASCII document are ASCII, wherever they stand: in place, where a
reference leads, or in an object that parameters are folded into. So all schemas that are compiled
for the operation are ASCII, and with them the schemas that their references lead to.
-/

namespace ApiClient

open Json (Value)
open Text (isAscii)

/-! ## Schemas -/

theorem inherited_ascii : Inherited (fun c ↦ (Schema.nodeValue c).isAscii) (fun _ t ↦ isAscii t)
    fun t ↦ isAscii t where
  ref _ h := Schema.ascii_nodeValue_ref.1 h
  target s d path h hd hp := by
    obtain ⟨e, he, rfl⟩ := List.mem_map.1 hp
    exact ((Schema.ascii_nodeValue_inline.1 h).mapping d hd e he).2
  part _ _ h hc := (Schema.ascii_nodeValue_inline.1 h).part hc
  key _ ps _ _ h hps hc := ((Schema.ascii_nodeValue_inline.1 h).properties ps hps _ hc).1

theorem Env.ascii_of_target {env : Env} (hroot : env.snapshot.root.isAscii) {path : String}
    {plain : Bool} {s : Schema} (h : env.target path plain = .ok s) : s.IsAscii := by
  obtain ⟨t, ht, rfl⟩ := target_eq_ok.1 h
  obtain ⟨n, hn, hread⟩ := Snapshot.ascii_of_resolve hroot ht
  have htascii := Schema.ascii_of_ofNode hn hread
  cases plain with
  | false => exact htascii
  | true => exact { htascii with property := by simp, mapping := by simp }

theorem leads_ascii {env : Env} (hroot : env.snapshot.root.isAscii) :
    Leads env (fun c ↦ (Schema.nodeValue c).isAscii) (fun _ t ↦ isAscii t) fun t ↦ isAscii t where
  schema _ _ _ _ h := Schema.ascii_nodeValue_inline.2 (env.ascii_of_target hroot h)
  name path plain s hpath h := by
    have htitle := (env.ascii_of_target hroot h).title
    cases hs : s.title with
    | some t => exact htitle t hs
    | none => exact Pointer.ascii_displayName (env.ascii_aliasKey hpath plain)

theorem Media.ascii_schemaOf {content : Table MediaType} (h : Media.IsAscii content) :
    (Schema.nodeValue (schemaOf content)).isAscii := by
  unfold schemaOf
  split
  next c hc =>
    obtain ⟨e, he, hc⟩ := Option.bind_eq_some_iff.1 hc
    obtain ⟨-, he⟩ := h e (List.mem_of_find?_eq_some he)
    exact MediaType.ascii_toValue.1 he c hc
  next =>
    have hbinary : isAscii "binary" := by decide
    refine Schema.ascii_nodeValue_inline.2 ?_
    constructor <;> simp [fallbackSchema, hbinary]

/-! ## Parameters -/

namespace Parameters

theorem ascii_memberOf? {name object member : String} (hname : isAscii name)
    (h : memberOf? name = some (object, member)) : isAscii object ∧ isAscii member := by
  obtain ⟨-, -, -, rest, rfl⟩ := memberOf?_eq_some_iff.1 h
  simp only [Text.isAscii_append] at hname
  exact ⟨hname.1.1.1.1, hname.1.1.2⟩

theorem ascii_emptyObject {name : String} (h : isAscii name) (location : Location) :
    (emptyObject name location).toValue.isAscii := by
  have hstyle : isAscii "deepObject" := by decide
  refine Parameter.ascii_toValue.2 ⟨h, by simp [emptyObject], ?_,
    by simp [emptyObject, Media.IsAscii], by simp [emptyObject, hstyle]⟩
  rintro c ⟨⟩
  refine Schema.ascii_nodeValue_inline.2 ?_
  constructor <;> simp

theorem ascii_addMember {p : Parameter} (hp : p.toValue.isAscii) {name : String}
    (hname : isAscii name) {c : RefOr Schema} (hc : (Schema.nodeValue c).isAscii) :
    (addMember p name c).toValue.isAscii := by
  unfold addMember
  split
  next s hs =>
    obtain ⟨hpname, hdescription, hschema, hcontent, hstyle⟩ := Parameter.ascii_toValue.1 hp
    refine Parameter.ascii_toValue.2 ⟨hpname, hdescription, ?_, hcontent, hstyle⟩
    have hs := Schema.ascii_nodeValue_inline.1 (hschema _ hs)
    rintro c ⟨⟩
    refine Schema.ascii_nodeValue_inline.2 { hs with properties := ?_ }
    rintro ps ⟨⟩ e he
    rcases Table.mem_of_mem_put he with he | rfl
    · cases hps : s.properties with
      | none => simp [hps] at he
      | some ps => exact hs.properties ps hps e (by simpa [hps] using he)
    · exact ⟨hname, hc⟩
  next => exact hp

theorem ascii_schemaOrAny {p : Parameter} (hp : p.toValue.isAscii) :
    (Schema.nodeValue (schemaOrAny p)).isAscii := by
  unfold schemaOrAny
  cases hs : p.schema with
  | some c =>
    obtain ⟨-, -, hschema, -, -⟩ := Parameter.ascii_toValue.1 hp
    exact hschema c hs
  | none =>
    refine Schema.ascii_nodeValue_inline.2 ?_
    constructor <;> simp

/-- A folded parameter is an object of the first parts of names, whose members are named by the
second parts. -/
theorem handedOn_ascii : HandedOn fun p ↦ p.toValue.isAscii where
  empty p _ _ hp hmember := by
    obtain ⟨hname, -⟩ := Parameter.ascii_toValue.1 hp
    exact ascii_emptyObject (ascii_memberOf? hname hmember).1 p.location
  add p _ _ hp hmember q hq := by
    obtain ⟨hname, -⟩ := Parameter.ascii_toValue.1 hp
    exact ascii_addMember hq (ascii_memberOf? hname hmember).2 (ascii_schemaOrAny hp)

end Parameters

/-! ## Operations -/

section

variable {env : Env} (hroot : env.snapshot.root.isAscii) {upgraded : Bool} {item : PathItem}
  {op : Operation}

include hroot

theorem Operation.ascii_resolvedParameters (hitem : item.toValue.isAscii) (hop : op.toValue.isAscii)
    {params : List Parameter} (h : resolvedParameters env upgraded item op = .ok params) :
    ∀ p ∈ params, p.toValue.isAscii := by
  obtain ⟨-, -, hofPath, -⟩ := PathItem.ascii_toValue.1 hitem
  obtain ⟨-, -, -, -, hofOperation, -⟩ := Operation.ascii_toValue.1 hop
  refine forall_mem_resolvedParameters Parameters.handedOn_ascii (fun c hc p hget ↦ ?_) h
  exact Snapshot.ascii_of_get hroot (fun n hn p ↦ Parameter.ascii_of_ofNode hn)
    (List.forall_mem_append.2 ⟨hofPath, hofOperation⟩ c hc) hget

theorem Operation.ascii_body (hop : op.toValue.isAscii) {body : Option RequestBody}
    (h : op.body.mapM (env.snapshot.get RequestBody.ofNode) = .ok body) :
    ∀ b ∈ body, b.toValue.isAscii := by
  intro b hb
  obtain rfl := Option.mem_def.1 hb
  obtain ⟨-, -, -, -, -, hbody, -⟩ := Operation.ascii_toValue.1 hop
  obtain ⟨c, hc, hget⟩ := exists_of_body h
  exact Snapshot.ascii_of_get hroot (fun n hn b ↦ RequestBody.ascii_of_ofNode hn) (hbody c hc) hget

/-- All schemas that are compiled for an operation of an ASCII document are ASCII. -/
theorem Operation.compiles_ascii (hitem : item.toValue.isAscii) (hop : op.toValue.isAscii) :
    op.Compiles env upgraded item fun c ↦ (Schema.nodeValue c).isAscii where
  params params h p hp := by
    obtain ⟨-, -, hschema, hcontent, -⟩ :=
      Parameter.ascii_toValue.1 (ascii_resolvedParameters hroot hitem hop h p hp)
    unfold Parameter.node
    split
    · rintro _ ⟨⟩
      exact Media.ascii_schemaOf hcontent
    · exact hschema
  body body h b hb :=
    Media.ascii_schemaOf (RequestBody.ascii_toValue.1 (ascii_body hroot hop h b hb)).2
  responses responses h entry hentry := by
    obtain ⟨-, -, -, -, -, -, hresponses⟩ := Operation.ascii_toValue.1 hop
    obtain ⟨rs, hrs, e, he, hget⟩ := exists_of_mem_resolvedResponses h hentry
    have hr := Snapshot.ascii_of_get hroot (fun n hn r ↦ Response.ascii_of_ofNode hn)
      (hresponses rs hrs e he).2 hget
    exact Media.ascii_schemaOf (Response.ascii_toValue.1 hr).2

end

end ApiClient
