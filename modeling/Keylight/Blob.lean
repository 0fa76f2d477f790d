import Keylight.Outcomes

/-!
# The persisted blob

Every field the client keeps on disk is written in one place and read in one
place. `loadCache_buildBlob` says what a reader gets back: the cache that was
written, with the values the reader takes for absent gone.
-/
namespace Keylight
open Bytes JValue

abbrev Field := Bytes × Option Written

def fieldMembers (fields : List Field) : List Member :=
  fields.filterMap fun f => f.2.map fun w => ⟨w, f.1⟩

/-- The object that the present fields are read back as. -/
def fieldsValue (fields : List Field) : JValue :=
  .object ((fieldMembers fields).map Member.key)
    ((fieldMembers fields).map fun m => (m.key, m.value))

theorem fieldMembers_keys (fields : List Field) :
    ((fieldMembers fields).map Member.key).Sublist (fields.map Prod.fst) := by
  induction fields with
  | nil => exact .slnil
  | cons f fields ih =>
    obtain ⟨key, w⟩ := f
    cases w with
    | none => exact .cons _ ih
    | some w => exact .cons_cons _ ih

theorem reads_fields (fields : List Field) (h : (fields.map Prod.fst).Nodup) :
    Reads (jsonObject ((fieldMembers fields).map Member.render)) (fieldsValue fields) :=
  reads_jsonObject _ (h.sublist (fieldMembers_keys fields))

theorem lookup_absent (fields : List Field) {key : Bytes} (h : key ∉ fields.map Prod.fst) :
    ((fieldMembers fields).map fun m => (m.key, m.value)).lookup key = none := by
  rw [List.lookup_eq_none_iff]
  intro p hp
  obtain ⟨m, hm, rfl⟩ := List.mem_map.1 hp
  have hkey : m.key ∈ fields.map Prod.fst :=
    (fieldMembers_keys fields).subset (List.mem_map_of_mem hm)
  rw [bne_iff_ne]
  rintro rfl
  exact h hkey

/-- Looking up a field of the object finds what was written under its key. -/
theorem lookup_fields (fields : List Field) (h : (fields.map Prod.fst).Nodup) {key : Bytes}
    {w : Option Written} (hmem : (key, w) ∈ fields) :
    ((fieldMembers fields).map fun m => (m.key, m.value)).lookup key = w.map Written.value := by
  induction fields with
  | nil => cases hmem
  | cons f fields ih =>
    obtain ⟨k, w'⟩ := f
    obtain ⟨hnew, hrest⟩ := List.nodup_cons.1 h
    obtain heq | hin := List.mem_cons.1 hmem
    · cases heq
      cases w with
      | none => exact lookup_absent fields hnew
      | some w => simp [fieldMembers]
    · have hne : (key == k) = false := by
        rw [beq_eq_false_iff_ne]
        intro he
        apply hnew
        simpa only [he] using List.mem_map_of_mem (f := Prod.fst) hin
      cases w' with
      | none => exact ih hrest hin
      | some w' =>
        have hi := ih hrest hin
        simpa [fieldMembers, List.lookup_cons, hne] using hi

theorem get_fields (fields : List Field) (h : (fields.map Prod.fst).Nodup) {key : Bytes}
    {w : Option Written} (hmem : (key, w) ∈ fields) :
    (fieldsValue fields).get key = (w.map Written.value).getD .null := by
  simp only [fieldsValue, JValue.get, lookup_fields fields h hmem]

theorem contains_lookup (members : List Member) (key : Bytes) :
    (members.map Member.key).contains key =
      ((members.map fun m => (m.key, m.value)).lookup key).isSome := by
  induction members with
  | nil => rfl
  | cons m members ih =>
    by_cases hk : key = m.key
    · simp [← hk]
    · have hb : (key == m.key) = false := beq_eq_false_iff_ne.2 hk
      simp only [List.map_cons, List.contains_cons, List.lookup_cons, hb, Bool.false_or, ih]

theorem jsonHas_fields (fields : List Field) (h : (fields.map Prod.fst).Nodup) {key : Bytes}
    {w : Option Written} (hmem : (key, w) ∈ fields) :
    jsonHas (fieldsValue fields) key = w.isSome := by
  rw [jsonHas, fieldsValue, JValue.keys, contains_lookup, lookup_fields fields h hmem,
    Option.isSome_map]

def writtenString (s : Bytes) : Written := ⟨jsonStr s, .string s, reads_jsonStr s⟩
def writtenInt (i : Int64) : Written := ⟨int64Text i, intValue i, reads_decimal i⟩
def writtenBool (b : Bool) : Written := ⟨boolText b, .bool b, reads_bool b⟩
def writtenLease (l : Lease) : Written := ⟨leaseToJson l, leaseValue l, reads_leaseToJson l⟩

def blobFields (c : Cache) : List Field := [
  (ascii "lease", c.lease.map writtenLease),
  (ascii "expiresAt", c.expiresAt.map writtenInt),
  (ascii "instanceId", c.instanceId.map writtenString),
  (ascii "licenseKey", c.licenseKey.map writtenString),
  (ascii "lastValidatedOnline", (nonZero c.lastValidatedOnline).map writtenInt),
  (ascii "trialStart", c.trialStart.map writtenInt),
  (ascii "freeTierInstanceId", c.freeTierInstanceId.map writtenString),
  (ascii "cachedHardwareId", c.hardwareId.map writtenString),
  (ascii "keylessLastState", c.keylessLastState.map writtenString),
  (ascii "lastKeylessPingAt", (nonZero c.lastKeylessPingAt).map writtenInt),
  (ascii "serverTrialDurationDays", c.serverTrialDays.map fun d => writtenInt d.toInt64),
  (ascii "serverFreeTierEnabled", c.serverFreeTier.map writtenBool)]

theorem blobFields_nodup (c : Cache) : ((blobFields c).map Prod.fst).Nodup := by
  simp only [blobFields, List.map_cons, List.map_nil]
  decide

theorem render_fields (key : Bytes) (w : Option Written) (fields : List Field) :
    (fieldMembers ((key, w) :: fields)).map Member.render =
      optionMember key (w.map Written.text) ++ (fieldMembers fields).map Member.render := by
  cases w <;> rfl

theorem int32_text (d : Int32) : int64Text d.toInt64 = decimal d.toInt := by
  rw [int64Text, Int32.toInt_toInt64]

theorem buildBlob_fields (c : Cache) :
    buildBlob c = jsonObject ((fieldMembers (blobFields c)).map Member.render) := by
  have hnil : (fieldMembers []).map Member.render = [] := rfl
  simp only [buildBlob, blobFields, render_fields, hnil, Option.map_map, List.append_nil,
    List.append_assoc]
  simp only [Function.comp_def, writtenLease, writtenInt, writtenString, writtenBool, int32_text]

/-- The object the blob is read back as. -/
def blobValue (c : Cache) : Json := fieldsValue (blobFields c)

theorem parse_buildBlob (c : Cache) : Json.parse (buildBlob c) = .ok (blobValue c) := by
  rw [buildBlob_fields]
  exact (reads_fields _ (blobFields_nodup c)).parse

theorem decodeStore_buildBlob (c : Cache) : decodeStore (buildBlob c) = some (blobValue c) := by
  have hne : buildBlob c ≠ [] := by
    rw [buildBlob]
    exact List.cons_ne_nil _ _
  rw [decodeStore, if_neg hne, parse_buildBlob]
  rfl

/-- What a reader of the blob gets: zero times and empty texts are gone. -/
def reloaded (c : Cache) : Cache :=
  { c with
    expiresAt := c.expiresAt.bind nonZero
    instanceId := Client.nonEmpty c.instanceId
    licenseKey := Client.nonEmpty c.licenseKey
    trialStart := c.trialStart.bind nonZero
    freeTierInstanceId := Client.nonEmpty c.freeTierInstanceId
    hardwareId := Client.nonEmpty c.hardwareId
    keylessLastState := Client.nonEmpty c.keylessLastState }

section
variable {c : Cache} {key : Bytes}

theorem stringOf_blob {s : Option Bytes} (h : (key, s.map writtenString) ∈ blobFields c) :
    stringOf (blobValue c) key = Client.nonEmpty s := by
  rw [stringOf, blobValue, get_fields _ (blobFields_nodup c) h]
  cases s with
  | none => rfl
  | some s => cases s <;> rfl

theorem asInt_blob {i : Option Int64} (h : (key, i.map writtenInt) ∈ blobFields c) :
    ((blobValue c).get key).asInt = i.getD 0 := by
  rw [blobValue, get_fields _ (blobFields_nodup c) h]
  cases i with
  | none => rfl
  | some i => simp [writtenInt]

theorem intOf_blob {i : Option Int64} (h : (key, i.map writtenInt) ∈ blobFields c) :
    intOf (blobValue c) key = i.bind nonZero := by
  rw [intOf, asInt_blob h]
  cases i <;> rfl

theorem leaseOf_blob (h : ∀ l, c.lease = some l → l.Accepted) :
    leaseOf (blobValue c) = c.lease := by
  have hmem : (ascii "lease", c.lease.map writtenLease) ∈ blobFields c := .head _
  rw [leaseOf, blobValue, get_fields _ (blobFields_nodup c) hmem]
  cases hl : c.lease with
  | none => rfl
  | some l => simp [writtenLease, fromJson_leaseValue_accepted (h l hl), Except.toOption]

theorem nonZero_bind (i : Int64) : (nonZero i).bind nonZero = nonZero i := by
  unfold nonZero
  split <;> simp_all

theorem nonZero_getD (i : Int64) : (nonZero i).getD 0 = i := by
  unfold nonZero
  split <;> simp_all

end

theorem serverTrialDays_blob (c : Cache) :
    (loadCache (blobValue c) {}).serverTrialDays = c.serverTrialDays := by
  have hmem : (ascii "serverTrialDurationDays",
      c.serverTrialDays.map fun d => writtenInt d.toInt64) ∈ blobFields c :=
    List.mem_of_getElem? (i := 10) rfl
  simp only [loadCache, blobValue, jsonHas_fields _ (blobFields_nodup c) hmem,
    get_fields _ (blobFields_nodup c) hmem]
  cases c.serverTrialDays with
  | none => rfl
  | some d => simp [writtenInt]

theorem serverFreeTier_blob (c : Cache) :
    (loadCache (blobValue c) {}).serverFreeTier = c.serverFreeTier := by
  have hmem : (ascii "serverFreeTierEnabled", c.serverFreeTier.map writtenBool) ∈ blobFields c :=
    List.mem_of_getElem? (i := 11) rfl
  simp only [loadCache, blobValue, jsonHas_fields _ (blobFields_nodup c) hmem,
    get_fields _ (blobFields_nodup c) hmem]
  cases c.serverFreeTier with
  | none => rfl
  | some b => simp [writtenBool, JValue.asBool]

/-- Every field but the lease is read from the blob as it is. -/
theorem loadCache_blobValue (c : Cache) :
    loadCache (blobValue c) {} = { reloaded c with lease := leaseOf (blobValue c) } := by
  have mem : ∀ i, ∀ f, (blobFields c)[i]? = some f → f ∈ blobFields c := fun _ _ =>
    List.mem_of_getElem?
  have hexp := intOf_blob (mem 1 (ascii "expiresAt", c.expiresAt.map writtenInt) rfl)
  have hinst := stringOf_blob (mem 2 (ascii "instanceId", c.instanceId.map writtenString) rfl)
  have hkey := stringOf_blob (mem 3 (ascii "licenseKey", c.licenseKey.map writtenString) rfl)
  have hlvo := intOf_blob (mem 4 (ascii "lastValidatedOnline",
    (nonZero c.lastValidatedOnline).map writtenInt) rfl)
  have htrial := intOf_blob (mem 5 (ascii "trialStart", c.trialStart.map writtenInt) rfl)
  have hfree := stringOf_blob (mem 6 (ascii "freeTierInstanceId",
    c.freeTierInstanceId.map writtenString) rfl)
  have hhw := stringOf_blob (mem 7 (ascii "cachedHardwareId",
    c.hardwareId.map writtenString) rfl)
  have hlast := stringOf_blob (mem 8 (ascii "keylessLastState",
    c.keylessLastState.map writtenString) rfl)
  have hping := asInt_blob (mem 9 (ascii "lastKeylessPingAt",
    (nonZero c.lastKeylessPingAt).map writtenInt) rfl)
  have hdays := serverTrialDays_blob c
  have htier := serverFreeTier_blob c
  simp only [loadCache] at hdays htier
  simp only [loadCache, reloaded, hexp, hinst, hkey, hlvo, htrial, hfree, hhw,
    hlast, hping, hdays, htier, nonZero_bind, nonZero_getD, Option.or_none]

/-- What is written to disk is what the next launch reads. -/
theorem loadCache_buildBlob (c : Cache) (h : ∀ l, c.lease = some l → l.Accepted) :
    loadCache (blobValue c) {} = reloaded c := by
  rw [loadCache_blobValue, leaseOf_blob h]
  rfl

end Keylight
