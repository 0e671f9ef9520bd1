import ViewIndex.Proofs.Key.Numbers

/-!
# Keys as they are shown

A key that was read back is shown as JSON in its own way: different keys are shown as values that
differ even if numbers are compared by what they denote, and what is shown for a key gives that key
again.
-/

namespace ViewIndex

/-! ## Values of JSON -/

namespace Json

/-- The value of a number that is finite. -/
def Number.value : Number → ℚ
  | .int i => i
  | .real x => x.value

mutual

/-- Whether two values are one, however their numbers are written: numbers are compared by the exact
values that they denote. -/
def Coincides : Json → Json → Prop
  | .null, .null => True
  | .bool a, .bool b => a = b
  | .number m, .number n => m.value = n.value
  | .text s, .text t => s = t
  | .array a, .array b => CoincidesItems a b
  | .object a, .object b => CoincidesMembers a b
  | _, _ => False

def CoincidesItems : List Json → List Json → Prop
  | [], [] => True
  | x :: xs, y :: ys => Coincides x y ∧ CoincidesItems xs ys
  | _, _ => False

def CoincidesMembers : List (String × Json) → List (String × Json) → Prop
  | [], [] => True
  | (m, x) :: xs, (n, y) :: ys => (m = n ∧ Coincides x y) ∧ CoincidesMembers xs ys
  | _, _ => False

end

mutual

theorem Coincides.refl : ∀ value : Json, value.Coincides value
  | .null => trivial
  | .bool _ | .number _ | .text _ => rfl
  | .array items => CoincidesItems.refl items
  | .object members => CoincidesMembers.refl members

theorem CoincidesItems.refl : ∀ items : List Json, CoincidesItems items items
  | [] => trivial
  | item :: rest => ⟨Coincides.refl item, CoincidesItems.refl rest⟩

theorem CoincidesMembers.refl : ∀ members : List (String × Json), CoincidesMembers members members
  | [] => trivial
  | (_, value) :: rest => ⟨⟨rfl, Coincides.refl value⟩, CoincidesMembers.refl rest⟩

end

end Json

/-! ## Components as JSON -/

namespace KeyPart

theorem numberToJson_cases {x : Binary64} (hfinite : x.isFinite = true) :
    numberToJson x = .number (.real x) ∨
      ∃ i, x.toInt? = some i ∧ i.natAbs < integerBound ∧ numberToJson x = .number (.int i) := by
  unfold numberToJson
  split
  next i hi =>
    split
    next hbound => exact .inr ⟨i, hi, hbound, rfl⟩
    next => exact .inl rfl
  next => exact .inl (if_pos hfinite)

/-- A number is shown as one of the same value. -/
theorem exists_numberToJson {x : Binary64} (hfinite : x.isFinite = true) :
    ∃ n, numberToJson x = .number n ∧ n.value = x.value := by
  rcases numberToJson_cases hfinite with hreal | ⟨i, hi, -, hint⟩
  · exact ⟨_, hreal, rfl⟩
  · exact ⟨_, hint, (Binary64.value_of_toInt? hi).symm⟩

/-- The component is finite and was read back. -/
def Plain (part : KeyPart) : Prop := part.isFinite = true ∧ part.settled = part

theorem Plain.of_number {x : Binary64} (h : (KeyPart.number x).Plain) :
    x.isFinite = true ∧ x.unsignedZero = x := by
  obtain ⟨hfinite, hsettled⟩ := h
  exact ⟨by simpa [isFinite] using hfinite, by simpa [settled] using hsettled⟩

theorem Plain.of_array {items : List KeyPart} (h : (KeyPart.array items).Plain) :
    allFinite items = true ∧ settledItems items = items := by
  obtain ⟨hfinite, hsettled⟩ := h
  exact ⟨by simpa [isFinite] using hfinite, by simpa [settled] using hsettled⟩

mutual

/-- Different components are shown as different values. -/
theorem eq_of_coincides : ∀ {a b : KeyPart}, a.Plain → b.Plain → a.toJson.Coincides b.toJson →
    a = b
  | .null, .null, _, _, _ => rfl
  | .bool _, .bool _, _, _, h => congrArg _ h
  | .text _, .text _, _, _, h => congrArg _ h
  | .number x, .number y, ha, hb, h => by
      obtain ⟨hx, hsettledX⟩ := ha.of_number
      obtain ⟨hy, hsettledY⟩ := hb.of_number
      obtain ⟨m, hm, hvalueX⟩ := exists_numberToJson hx
      obtain ⟨n, hn, hvalueY⟩ := exists_numberToJson hy
      simp only [toJson, hm, hn, Json.Coincides, hvalueX, hvalueY] at h
      exact congrArg _ (Binary64.eq_of_value h hsettledX hsettledY)
  | .array a, .array b, ha, hb, h => by
      obtain ⟨hfiniteA, hsettledA⟩ := ha.of_array
      obtain ⟨hfiniteB, hsettledB⟩ := hb.of_array
      simp only [toJson, Json.Coincides] at h
      exact congrArg _ (eq_of_coincidesItems hfiniteA hfiniteB hsettledA hsettledB h)
  | .number x, .null, ha, _, h | .number x, .bool _, ha, _, h | .number x, .text _, ha, _, h
  | .number x, .array _, ha, _, h => by
      obtain ⟨n, hn, -⟩ := exists_numberToJson ha.of_number.1
      simp [toJson, hn, Json.Coincides] at h
  | .null, .number y, _, hb, h | .bool _, .number y, _, hb, h | .text _, .number y, _, hb, h
  | .array _, .number y, _, hb, h => by
      obtain ⟨n, hn, -⟩ := exists_numberToJson hb.of_number.1
      simp [toJson, hn, Json.Coincides] at h

theorem eq_of_coincidesItems : ∀ {a b : List KeyPart}, allFinite a = true → allFinite b = true →
    settledItems a = a → settledItems b = b →
    Json.CoincidesItems (toJsonItems a) (toJsonItems b) → a = b
  | [], [], _, _, _, _, _ => rfl
  | p :: a, q :: b, ha, hb, hsettledA, hsettledB, h => by
      rw [allFinite, Bool.and_eq_true] at ha hb
      rw [settledItems, List.cons.injEq] at hsettledA hsettledB
      rw [toJsonItems, toJsonItems, Json.CoincidesItems] at h
      rw [eq_of_coincides ⟨ha.1, hsettledA.1⟩ ⟨hb.1, hsettledB.1⟩ h.1,
        eq_of_coincidesItems ha.2 hb.2 hsettledA.2 hsettledB.2 h.2]

end

mutual

/-- What is shown for a component gives the component. -/
theorem ofJson_toJson : ∀ {part : KeyPart}, part.Plain → ofJson part.toJson = .ok part
  | .null, _ | .bool _, _ | .text _, _ => rfl
  | .number x, h => by
      obtain ⟨hfinite, hsettled⟩ := h.of_number
      rw [toJson]
      rcases numberToJson_cases hfinite with hreal | ⟨i, hi, hbound, hint⟩
      · rw [hreal]
        exact if_pos hfinite
      · have hbits : i.natAbs < 2 ^ 53 := Nat.lt_trans hbound (by decide)
        rw [hint, ofJson, Binary64.ofInt_of_toInt? hi hbits hsettled]
  | .array items, h => by
      obtain ⟨hfinite, hsettled⟩ := h.of_array
      rw [toJson, ofJson, ofJsonItems_toJsonItems hfinite hsettled]
      rfl

theorem ofJsonItems_toJsonItems : ∀ {items : List KeyPart}, allFinite items = true →
    settledItems items = items → ofJsonItems (toJsonItems items) = .ok items
  | [], _, _ => rfl
  | part :: rest, hfinite, hsettled => by
      rw [allFinite, Bool.and_eq_true] at hfinite
      rw [settledItems, List.cons.injEq] at hsettled
      rw [toJsonItems, ofJsonItems, ofJson_toJson ⟨hfinite.1, hsettled.1⟩,
        ofJsonItems_toJsonItems hfinite.2 hsettled.2]
      rfl

end

theorem allFinite_of_encodeItems {items : List KeyPart} {bytes : Bytes}
    (h : encodeItems items = .ok bytes) : allFinite items = true := by
  by_contra hfinite
  rw [encodeItems_of_not_allFinite items (by simpa using hfinite)] at h
  cases h

theorem toJsonItems_take (items : List KeyPart) (n : Nat) :
    toJsonItems (items.take n) = (toJsonItems items).take n := by
  induction items generalizing n with
  | nil => simp [toJsonItems]
  | cons part rest ih =>
      cases n with
      | zero => rfl
      | succ n => rw [List.take_succ_cons, toJsonItems, toJsonItems, List.take_succ_cons, ih]

end KeyPart

namespace EncodedKey.Decodes

variable {key other : EncodedKey} {parts others : Key}

theorem allFinite (h : key.Decodes parts) : KeyPart.allFinite parts = true :=
  KeyPart.allFinite_of_encodeItems (Key.encodeItems_of_encode h.encode_eq)

theorem unique (h : key.Decodes parts) (hother : key.Decodes others) : parts = others :=
  Except.ok.inj (h.decode_eq.symm.trans hother.decode_eq)

/-- Different keys are shown differently, and not only because their numbers are written in
different ways. -/
theorem coincides_iff (h : key.Decodes parts) (hother : other.Decodes others) :
    parts.toJson.Coincides others.toJson ↔ key = other := by
  constructor
  · intro hshown
    have hparts : parts = others :=
      KeyPart.eq_of_coincidesItems h.allFinite hother.allFinite h.settled hother.settled hshown
    have hencode := h.encode_eq
    rw [hparts, hother.encode_eq] at hencode
    exact (Except.ok.inj hencode).symm
  · rintro rfl
    rw [h.unique hother]
    exact Json.Coincides.refl _

theorem toJson_eq_iff (h : key.Decodes parts) (hother : other.Decodes others) :
    parts.toJson = others.toJson ↔ key = other := by
  constructor
  · intro heq
    apply (h.coincides_iff hother).mp
    rw [heq]
    exact Json.Coincides.refl _
  · rintro rfl
    rw [h.unique hother]

/-- What is shown for a key gives the key. -/
theorem ofJson_toJson (h : key.Decodes parts) : Key.ofJson parts.toJson = .ok parts :=
  KeyPart.ofJsonItems_toJsonItems h.allFinite h.settled

end EncodedKey.Decodes

end ViewIndex
