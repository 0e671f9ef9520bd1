import ViewIndex.Proofs.Key.Numbers
import ViewIndex.View.Basic

/-!
# What can be a component

The components of an emitted key are JSON values. Whatever holds no object has a place in the order:
its numbers are finite, and an integer of 64 bits stays so when it is rounded. So an emission has a
key exactly if there is no object in its components, at whatever depth of arrays.
-/

namespace ViewIndex

/-! ## Values with objects -/

namespace Json

mutual

/-- Whether a value is an object, or an array that holds one at some depth. -/
def hasObject : Json → Bool
  | .object _ => true
  | .array items => anyHasObject items
  | _ => false

def anyHasObject : List Json → Bool
  | [] => false
  | item :: rest => item.hasObject || anyHasObject rest

end

/-- Whether a number is one of JSON: an integer of 64 bits, or finite. -/
def Number.isRegular : Number → Bool
  | .int i => -2 ^ 63 ≤ i && i < 2 ^ 64
  | .real x => x.isFinite

mutual

/-- Whether all numbers are numbers of JSON. Those in objects are not looked at. -/
def isRegular : Json → Bool
  | .number n => n.isRegular
  | .array items => allRegular items
  | _ => true

def allRegular : List Json → Bool
  | [] => true
  | item :: rest => item.isRegular && allRegular rest

end

theorem anyHasObject_eq_false_iff (items : List Json) :
    anyHasObject items = false ↔ ∀ item ∈ items, item.hasObject = false := by
  induction items with
  | nil => simp [anyHasObject]
  | cons item rest ih => rw [anyHasObject, Bool.or_eq_false_iff, ih, List.forall_mem_cons]

end Json

namespace KeyPart

mutual

/-- A value without objects gives a component. -/
theorem exists_ofJson : ∀ value : Json, value.isRegular = true → value.hasObject = false →
    ∃ part, ofJson value = .ok part ∧ part.isFinite = true
  | .null, _, _ => ⟨.null, rfl, rfl⟩
  | .bool b, _, _ => ⟨.bool b, rfl, rfl⟩
  | .number (.int i), hregular, _ => by
      simp only [Json.isRegular, Json.Number.isRegular, Bool.and_eq_true, decide_eq_true_iff]
        at hregular
      exact ⟨_, rfl, Binary64.isFinite_ofInt (by omega)⟩
  | .number (.real x), hregular, _ => ⟨.number x, if_pos hregular, hregular⟩
  | .text s, _, _ => ⟨.text s, rfl, rfl⟩
  | .array items, hregular, hobject => by
      obtain ⟨parts, hparts, hfinite⟩ := exists_ofJsonItems items hregular hobject
      exact ⟨.array parts, by rw [ofJson, hparts]; rfl, hfinite⟩

theorem exists_ofJsonItems : ∀ items : List Json, Json.allRegular items = true →
    Json.anyHasObject items = false →
    ∃ parts, ofJsonItems items = .ok parts ∧ allFinite parts = true
  | [], _, _ => ⟨[], rfl, rfl⟩
  | item :: rest, hregular, hobject => by
      rw [Json.allRegular, Bool.and_eq_true] at hregular
      rw [Json.anyHasObject, Bool.or_eq_false_iff] at hobject
      obtain ⟨part, hpart, hfinite⟩ := exists_ofJson item hregular.1 hobject.1
      obtain ⟨parts, hparts, hallFinite⟩ := exists_ofJsonItems rest hregular.2 hobject.2
      refine ⟨part :: parts, by rw [ofJsonItems, hpart, hparts]; rfl, ?_⟩
      rw [allFinite, hfinite, hallFinite]
      rfl

end

mutual

/-- An object is the reason why a value gives no component. -/
theorem ofJson_of_hasObject : ∀ value : Json, value.isRegular = true → value.hasObject = true →
    ofJson value = .error (.unsupportedKind "object")
  | .object _, _, _ => rfl
  | .array items, hregular, hobject => by
      rw [ofJson, ofJsonItems_of_anyHasObject items hregular hobject]
      rfl
  | .null, _, hobject | .bool _, _, hobject | .number _, _, hobject | .text _, _, hobject =>
      Bool.noConfusion hobject

theorem ofJsonItems_of_anyHasObject : ∀ items : List Json, Json.allRegular items = true →
    Json.anyHasObject items = true → ofJsonItems items = .error (.unsupportedKind "object")
  | item :: rest, hregular, hobject => by
      rw [Json.allRegular, Bool.and_eq_true] at hregular
      rw [ofJsonItems]
      cases hitem : item.hasObject with
      | true =>
          rw [ofJson_of_hasObject item hregular.1 hitem]
          rfl
      | false =>
          rw [Json.anyHasObject, hitem, Bool.false_or] at hobject
          obtain ⟨part, hpart, -⟩ := exists_ofJson item hregular.1 hitem
          rw [hpart, ofJsonItems_of_anyHasObject rest hregular.2 hobject]
          rfl

end

end KeyPart

/-! ## Emissions -/

namespace Emission

variable {emission : Emission}

/-- Whether no component holds an object. -/
def isOrderable (emission : Emission) : Bool := !Json.anyHasObject emission.key

/-- Whether all numbers in the components are numbers of JSON. -/
def isRegular (emission : Emission) : Bool := Json.allRegular emission.key

theorem isOrderable_iff :
    emission.isOrderable = true ↔ ∀ component ∈ emission.key, component.hasObject = false := by
  rw [isOrderable, Bool.not_eq_true', Json.anyHasObject_eq_false_iff]

theorem exists_encodeKey (hregular : emission.isRegular = true)
    (h : emission.isOrderable = true) : ∃ key, emission.encodeKey = .ok key := by
  rw [isOrderable, Bool.not_eq_true'] at h
  obtain ⟨parts, hparts, hfinite⟩ := KeyPart.exists_ofJsonItems emission.key hregular h
  obtain ⟨bytes, hbytes⟩ := KeyPart.encodeItems_of_allFinite parts hfinite
  refine ⟨⟨bytes⟩, ?_⟩
  rw [encodeKey, hparts]
  change Key.encode parts = _
  rw [Key.encode, hbytes]
  rfl

theorem encodeKey_of_not_isOrderable (hregular : emission.isRegular = true)
    (h : emission.isOrderable = false) :
    emission.encodeKey = .error (.unsupportedKind "object") := by
  rw [isOrderable, Bool.not_eq_false'] at h
  rw [encodeKey, KeyPart.ofJsonItems_of_anyHasObject emission.key hregular h]
  rfl

/-- An emission has a key exactly if no component holds an object. -/
theorem exists_encodeKey_iff (hregular : emission.isRegular = true) :
    (∃ key, emission.encodeKey = .ok key) ↔ emission.isOrderable = true := by
  refine ⟨fun ⟨key, hkey⟩ => ?_, exists_encodeKey hregular⟩
  cases horderable : emission.isOrderable with
  | true => rfl
  | false =>
      rw [encodeKey_of_not_isOrderable hregular horderable] at hkey
      cases hkey

end Emission

end ViewIndex
