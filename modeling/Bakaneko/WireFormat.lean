import Bakaneko.JsonText

/-!
# What client and server send each other

A value is sent as the text of its `to_json` and received by the `from_json`
of the same type. Both go through the member list of the type, so what is
received is what was sent, as long as the text is UTF-8 and the enumerators
are declared ones.
-/

set_option autoImplicit false

namespace Bakaneko.WireFormat
open Bakaneko.Native Bakaneko.Messages Bakaneko.JsonValues Bakaneko.JsonText
open Fallible

/-- `json::parse`, then the conversion to the type. -/
def receive {α : Type} (json : Nlohmann) (fromJson : Json → Except StdException α) (body : Bytes) :
    Except StdException α :=
  match json.parse body with
  | .error e => .error e
  | .ok j => fromJson j

/-- The values of a type come through, and no object without one of its members
is taken for one. -/
structure Carries {α : Type} (json : Nlohmann) (keys : List String) (toJson : α → Json)
    (fromJson : Json → Except StdException α) (Held : α → Prop) : Prop where
  back : ∀ v, Held v → AllUtf8 (toJson v) →
    ∃ body, json.dump (toJson v) = .ok body ∧ receive json fromJson body = .ok v
  throws : ∀ fields, ∀ key ∈ keys, (∀ f ∈ fields, f.1 ≠ bytes key) →
    ∃ e, fromJson (.object fields) = .error e

/-- The two conversions of a type go by one member list. -/
structure Codec {α : Type} (keys : List String) (toJson : α → Json)
    (fromJson : Json → Except StdException α) (Held : α → Prop) : Prop where
  exact : ∀ v, Held v → Exact (toJson v)
  back : ∀ v, Held v → fromJson (toJson v) = .ok v
  reads : Reads keys fromJson

theorem Codec.carries {α : Type} {keys : List String} {toJson : α → Json}
    {fromJson : Json → Except StdException α} {Held : α → Prop}
    (c : Codec keys toJson fromJson Held) (json : Nlohmann) (hjson : Inverse json) :
    Carries json keys toJson fromJson Held where
  back := by
    intro v hv hs
    obtain ⟨body, hd, hp⟩ := hjson (toJson v) (c.exact v hv) hs
    refine ⟨body, hd, ?_⟩
    rw [receive, hp]
    exact (c.reads.stable (toJson v) (c.exact v hv)).trans (c.back v hv)
  throws := by
    intro fields key hk hf
    apply c.reads.needs key hk (.object fields) .json
    have hnone : fields.find? (fun f => f.1 = bytes key) = none := by simpa using hf
    rw [atKey, hnone]

theorem field_head {α : Type} (get : Json → Except StdException α) (key : String) (value : Json)
    (fields : List (String × Json)) : field get key (record ((key, value)::fields)) = get value := by
  simp [field, record, atKey]

theorem field_tail {α : Type} (get : Json → Except StdException α) (key key' : String)
    (value : Json) (fields : List (String × Json)) (h : bytes key' ≠ bytes key) :
    field get key (record ((key', value)::fields)) = field get key (record fields) := by
  simp [field, record, atKey, h]

theorem exact_record (keys : List String) (fields : List (String × Json))
    (hk : fields.map Prod.fst = keys) (hd : (keys.map bytes).Nodup)
    (h : ∀ f ∈ fields, Exact f.2) : Exact (record fields) := by
  apply Exact.object
  · subst hk
    simpa [Function.comp_def] using hd
  · intro f hf
    obtain ⟨member, hm, rfl⟩ := List.mem_map.mp hf
    exact h member hm

theorem exact_unsigned (n : ℕ) (h : IsUInt64 n) : Exact (.number n) := by
  unfold IsUInt64 at h
  exact .number n (by omega) (by omega)

theorem exact_array {α : Type} (toJson : α → Json) (as : List α)
    (h : ∀ a ∈ as, Exact (toJson a)) : Exact (.array (as.map toJson)) :=
  .array _ (by simpa using h)

theorem getUnsigned_number (n : ℕ) (h : IsUInt64 n) : getUnsigned (.number n) = .ok n := by
  unfold IsUInt64 at h
  simp only [getUnsigned, Except.ok.injEq]
  omega

theorem getEnum_number (n : ℕ) (h : n < 4294967296) : getEnum (.number n) = .ok n := by
  simp only [getEnum, Except.ok.injEq]
  omega

theorem getArray_map {α : Type} (toJson : α → Json) (fromJson : Json → Except StdException α)
    (as : List α) (h : ∀ a ∈ as, fromJson (toJson a) = .ok a) :
    getArray fromJson (.array (as.map toJson)) = .ok as := by
  rw [getArray, mapM_map_ok fromJson toJson as id h, List.map_id]

theorem textField_eq (key : String) : textField key = field getText key := rfl

theorem system_codec : Codec System.keys System.toJson System.fromJson fun _ => True where
  exact := by
    intro s _
    apply exact_record System.keys _ rfl (by decide)
    simp [Exact.text]
  back := by
    intro s _
    simp (disch := decide) only [System.fromJson, System.toJson, textField_eq, field_head,
      field_tail, getText]
    rfl
  reads :=
    reads_field stable_text fun _ => reads_field stable_text fun _ =>
    reads_field stable_text fun _ => reads_field stable_text fun _ =>
    reads_field stable_text fun _ => reads_field stable_text fun _ =>
    reads_field stable_text fun _ => reads_field stable_text fun _ => reads_return _

theorem partition_codec :
    Codec Partition.keys Partition.toJson Partition.fromJson Partition.Held where
  exact := by
    intro p hp
    apply exact_record Partition.keys _ rfl (by decide)
    simp [Exact.text, exact_unsigned p.size hp.1, exact_unsigned p.used hp.2]
  back := by
    intro p hp
    simp (disch := decide) only [Partition.fromJson, Partition.toJson, field_head, field_tail,
      getText, getUnsigned_number p.size hp.1, getUnsigned_number p.used hp.2]
    rfl
  reads :=
    reads_field stable_text fun _ => reads_field stable_unsigned fun _ =>
    reads_field stable_unsigned fun _ => reads_field stable_text fun _ =>
    reads_field stable_text fun _ => reads_return _

theorem drive_codec : Codec Drive.keys Drive.toJson Drive.fromJson Drive.Held where
  exact := by
    intro d hd
    have hp := exact_array Partition.toJson d.partitions fun p hp =>
      partition_codec.exact p (hd.2 p hp)
    apply exact_record Drive.keys _ rfl (by decide)
    simp [Exact.text, exact_unsigned d.size hd.1, hp]
  back := by
    intro d hd
    have hp := getArray_map Partition.toJson Partition.fromJson d.partitions fun p hp =>
      partition_codec.back p (hd.2 p hp)
    simp (disch := decide) only [Drive.fromJson, Drive.toJson, field_head, field_tail, getText,
      getUnsigned_number d.size hd.1, hp]
    rfl
  reads :=
    reads_field stable_text fun _ => reads_field stable_unsigned fun _ =>
    reads_field stable_text fun _ => reads_field stable_text fun _ =>
    reads_field stable_text fun _ =>
    reads_field (stable_array _ partition_codec.reads.stable) fun _ => reads_return _

/-- A type with one list for a member. -/
theorem list_codec {α β : Type} {keys : List String} {toJson : α → Json}
    {fromJson : Json → Except StdException α} {Held : α → Prop}
    (c : Codec keys toJson fromJson Held) (key : String) (elements : β → List α)
    (make : List α → β) (hmake : ∀ b, make (elements b) = b) :
    Codec [key] (fun b => record [(key, .array ((elements b).map toJson))])
      (fun j => do
        let as ← field (getArray fromJson) key j
        return make as)
      fun b => ∀ a ∈ elements b, Held a where
  exact := by
    intro b hb
    have ha := exact_array toJson (elements b) fun a ha => c.exact a (hb a ha)
    apply exact_record [key] _ rfl (List.nodup_singleton _)
    simpa using ha
  back := by
    intro b hb
    have ha := getArray_map toJson fromJson (elements b) fun a ha => c.back a (hb a ha)
    rw [field_head, ha]
    exact congrArg Except.ok (hmake b)
  reads := reads_field (stable_array fromJson c.reads.stable) fun _ => reads_return _

theorem drives_codec : Codec Drives.keys Drives.toJson Drives.fromJson Drives.Held :=
  list_codec drive_codec "drives" Drives.drives Drives.mk fun _ => rfl

theorem update_codec : Codec Update.keys Update.toJson Update.fromJson fun _ => True where
  exact := by
    intro u _
    apply exact_record Update.keys _ rfl (by decide)
    simp [Exact.text]
  back := by
    intro u _
    simp (disch := decide) only [Update.fromJson, Update.toJson, field_head, field_tail, getText]
    rfl
  reads :=
    reads_field stable_text fun _ => reads_field stable_text fun _ =>
    reads_field stable_text fun _ => reads_field stable_text fun _ => reads_return _

theorem updates_codec : Codec Updates.keys Updates.toJson Updates.fromJson fun _ => True := by
  have hlist := list_codec update_codec "updates" Updates.updates Updates.mk fun _ => rfl
  simp only [implies_true] at hlist
  exact hlist

theorem adapter_codec : Codec Adapter.keys Adapter.toJson Adapter.fromJson Adapter.Held where
  exact := by
    intro a ha
    have hstate : IsUInt64 a.state := by
      unfold IsUInt64
      rcases ha.state with h | h <;> omega
    apply exact_record Adapter.keys _ rfl (by decide)
    simp [Exact.text, exact_unsigned _ hstate, exact_unsigned _ ha.linkSpeed,
      exact_unsigned _ ha.mtu, exact_unsigned _ ha.bytesRx, exact_unsigned _ ha.bytesTx,
      exact_unsigned _ ha.time]
  back := by
    intro a ha
    have hstate : a.state < 4294967296 := by rcases ha.state with h | h <;> omega
    simp (disch := decide) only [Adapter.fromJson, Adapter.toJson, field_head, field_tail, getText,
      getEnum_number _ hstate, getUnsigned_number _ ha.linkSpeed, getUnsigned_number _ ha.mtu,
      getUnsigned_number _ ha.bytesRx, getUnsigned_number _ ha.bytesTx,
      getUnsigned_number _ ha.time]
    rfl
  reads :=
    reads_field stable_text fun _ => reads_field stable_enum fun _ =>
    reads_field stable_unsigned fun _ => reads_field stable_unsigned fun _ =>
    reads_field stable_text fun _ => reads_field stable_text fun _ =>
    reads_field stable_unsigned fun _ => reads_field stable_unsigned fun _ =>
    reads_field stable_unsigned fun _ => reads_return _

theorem adapters_codec : Codec Adapters.keys Adapters.toJson Adapters.fromJson Adapters.Held :=
  list_codec adapter_codec "adapters" Adapters.adapters Adapters.mk fun _ => rfl

theorem serviceInfo_codec :
    Codec ServiceInfo.keys ServiceInfo.toJson ServiceInfo.fromJson fun _ => True where
  exact := by
    intro i _
    have ht := exact_array .text i.types fun type _ => .text type
    apply exact_record ServiceInfo.keys _ rfl (by decide)
    simp [Exact.text, ht]
  back := by
    intro i _
    have ht := getArray_map .text getText i.types fun _ _ => rfl
    simp (disch := decide) only [ServiceInfo.fromJson, ServiceInfo.toJson, field_head, field_tail,
      getText, ht]
    rfl
  reads :=
    reads_field stable_text fun _ => reads_field (stable_array _ stable_text) fun _ =>
    reads_return _

theorem servicesRequest_codec :
    Codec ServicesRequest.keys ServicesRequest.toJson ServicesRequest.fromJson fun _ => True where
  exact := by
    intro r _
    apply exact_record ServicesRequest.keys _ rfl (by decide)
    simp [Exact.text]
  back := by
    intro r _
    rw [ServicesRequest.fromJson, ServicesRequest.toJson, textField_eq, field_head]
    rfl
  reads := reads_field stable_text fun _ => reads_return _

theorem State.ofValue_value (s : State) (h : ∀ n, s ≠ .undeclared n) :
    s.value < 4 ∧ State.ofValue s.value = s := by
  cases s with
  | undeclared n => exact absurd rfl (h n)
  | _ => exact ⟨by decide, rfl⟩

theorem service_codec : Codec Service.keys Service.toJson Service.fromJson Service.Held where
  exact := by
    intro s hs
    have hstate : IsUInt64 s.state.value := by
      have := (State.ofValue_value s.state hs).1
      unfold IsUInt64
      omega
    apply exact_record Service.keys _ rfl (by decide)
    simp [Exact.text, Exact.boolean, exact_unsigned _ hstate]
  back := by
    intro s hs
    obtain ⟨hlt, hback⟩ := State.ofValue_value s.state hs
    have hstate := getEnum_number s.state.value (by omega)
    simp (disch := decide) only [Service.fromJson, Service.toJson, field_head, field_tail, getText,
      getBoolean, hstate]
    exact congrArg (fun state => Except.ok { s with state }) hback
  reads :=
    reads_field stable_text fun _ => reads_field stable_enum fun _ =>
    reads_field stable_boolean fun _ => reads_field stable_text fun _ =>
    reads_field stable_text fun _ => reads_field stable_text fun _ => reads_return _

theorem services_codec : Codec Services.keys Services.toJson Services.fromJson Services.Held :=
  list_codec service_codec "services" Services.services Services.mk fun _ => rfl

theorem Action.ofValue_value (a : Action) (h : ∀ n, a ≠ .undeclared n) :
    a.value < 5 ∧ Action.ofValue a.value = a := by
  cases a with
  | undeclared n => exact absurd rfl (h n)
  | _ => exact ⟨by decide, rfl⟩

theorem Control.fromJson_eq (j : Json) : Control.fromJson j = (do
    let id ← field getText "id" j
    let action ← field getEnum "action" j
    return { id, action := .ofValue action }) := by
  unfold Control.fromJson field
  rw [textField]
  cases atKey "id" j with
  | error e => rfl
  | ok value =>
    dsimp only
    cases getText value with
    | error e => rfl
    | ok id => cases atKey "action" j <;> rfl

theorem control_codec : Codec Control.keys Control.toJson Control.fromJson Control.Held where
  exact := by
    intro c hc
    have haction : IsUInt64 c.action.value := by
      have := (Action.ofValue_value c.action hc).1
      unfold IsUInt64
      omega
    apply exact_record Control.keys _ rfl (by decide)
    simp [Exact.text, exact_unsigned _ haction]
  back := by
    intro c hc
    obtain ⟨hlt, hback⟩ := Action.ofValue_value c.action hc
    have haction := getEnum_number c.action.value (by omega)
    rw [Control.fromJson_eq]
    simp (disch := decide) only [Control.toJson, field_head, field_tail, getText, haction]
    exact congrArg (fun action => Except.ok { c with action }) hback
  reads := by
    rw [funext Control.fromJson_eq]
    exact reads_field stable_text fun _ => reads_field stable_enum fun _ => reads_return _

/-- Each of the messages comes through as it was sent, and so do their parts. -/
theorem wire_format (json : Nlohmann) (hjson : Inverse json) :
    Carries json System.keys System.toJson System.fromJson (fun _ => True) ∧
    Carries json Drives.keys Drives.toJson Drives.fromJson Drives.Held ∧
    Carries json Drive.keys Drive.toJson Drive.fromJson Drive.Held ∧
    Carries json Partition.keys Partition.toJson Partition.fromJson Partition.Held ∧
    Carries json Updates.keys Updates.toJson Updates.fromJson (fun _ => True) ∧
    Carries json Update.keys Update.toJson Update.fromJson (fun _ => True) ∧
    Carries json Adapters.keys Adapters.toJson Adapters.fromJson Adapters.Held ∧
    Carries json Adapter.keys Adapter.toJson Adapter.fromJson Adapter.Held ∧
    Carries json ServiceInfo.keys ServiceInfo.toJson ServiceInfo.fromJson (fun _ => True) ∧
    Carries json Services.keys Services.toJson Services.fromJson Services.Held ∧
    Carries json Service.keys Service.toJson Service.fromJson Service.Held ∧
    Carries json ServicesRequest.keys ServicesRequest.toJson ServicesRequest.fromJson
      (fun _ => True) ∧
    Carries json Control.keys Control.toJson Control.fromJson Control.Held :=
  ⟨system_codec.carries json hjson, drives_codec.carries json hjson,
    drive_codec.carries json hjson, partition_codec.carries json hjson,
    updates_codec.carries json hjson, update_codec.carries json hjson,
    adapters_codec.carries json hjson, adapter_codec.carries json hjson,
    serviceInfo_codec.carries json hjson, services_codec.carries json hjson,
    service_codec.carries json hjson, servicesRequest_codec.carries json hjson,
    control_codec.carries json hjson⟩

/-- A disk with one partition, on its way through the library. -/
theorem wire_format_disk :
    let drives : Drives := ⟨[⟨bytes "sda", 512, bytes "Model \"A\"", [], [],
      [⟨bytes "sda1", 256, 17, bytes "/", bytes "ext4"⟩]⟩]⟩
    ∃ body, library.dump drives.toJson = .ok body ∧
      receive library Drives.fromJson body = .ok drives := by
  intro drives
  have hheld : drives.Held := by simp [drives, Drives.Held, Drive.Held, Partition.Held, IsUInt64]
  exact (wire_format library library_inverse).2.1.back drives hheld (by decide +kernel)

end Bakaneko.WireFormat
