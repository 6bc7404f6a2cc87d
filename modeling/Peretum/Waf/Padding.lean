import Peretum.Waf.Body
import Peretum.Waf.Marked

/-!
# Bodies beyond the limit

A body beyond the limit is cut for inspection, but it is not stored, and whether the
parameter is present is read from the store. So padding a body hides it from every
condition that asks for something in it. This file determines which bodies are seen.
-/

namespace Peretum.Waf

open Go

variable {F R A N : Type} {lib : Library F R A N}

/-- The body is seen by the conditions on it: there is one, it is read to its end within the
limit, and the limit has a successor. -/
structure Body.Seen (b : Body) (limit : Int64) : Prop where
  nonempty : b.data ≠ []
  fits : b.data.length ≤ limit.toNatClampNeg
  complete : b.failed = false
  limit_ne : limit ≠ Int64.maxValue

/-- The number of bytes `ensureBody` asks for. -/
theorem toNatClampNeg_add_one {limit : Int64} (hpos : 0 < limit) (hmax : limit ≠ Int64.maxValue) :
    (limit + 1).toNatClampNeg = limit.toNatClampNeg + 1 := by
  have hne : limit.toInt ≠ 2 ^ 63 - 1 := by
    exact fun h => hmax (Int64.toInt_inj.mp h)
  rw [Int64.lt_iff_toInt_lt, Int64.toInt_zero] at hpos
  have hupper := limit.toInt_lt
  have hsum : (limit + 1).toInt = limit.toInt + 1 := by
    rw [Int64.toInt_add, Int64.toInt_one]
    simp only [Int.bmod]
    split <;> omega
  rw [Int64.toNatClampNeg, Int64.toNatClampNeg, hsum]
  omega

/-- A limit is exceeded by a number of bytes just when it is smaller. -/
theorem lt_ofNat_iff {limit : Int64} (hpos : 0 < limit) {n : Nat} (hn : n < 2 ^ 63) :
    limit < .ofNat n ↔ limit.toNatClampNeg < n := by
  rw [Int64.lt_iff_toInt_lt, Int64.toInt_zero] at hpos
  rw [Int64.lt_iff_toInt_lt, Int64.toInt_ofNat_of_lt hn, Int64.toNatClampNeg]
  omega

theorem Body.Seen.inspect {b : Body} {limit : Int64} (hpos : 0 < limit) (hseen : b.Seen limit) :
    (b.inspect limit).1 = b.data ∧ (b.inspect limit).2.1 = some b.data := by
  have hbound : limit.toNatClampNeg < 2 ^ 63 := by
    have hupper := limit.toInt_lt
    rw [Int64.toNatClampNeg]
    omega
  have hfits := hseen.fits
  have hlimit : ¬ limit + 1 ≤ 0 := fun h => hseen.limit_ne ((add_one_le_zero_iff hpos).mp h)
  have hread : b.readLimited (limit + 1) = (some b.data, { b with data := [] }) := by
    rw [readLimited, if_neg hlimit, toNatClampNeg_add_one hpos hseen.limit_ne, if_neg (by omega),
      hseen.complete]
    rfl
  have hwithin : ¬ limit < .ofNat b.data.length := by
    rw [lt_ofNat_iff hpos (by omega)]
    omega
  rw [Body.inspect, hread]
  simp only [if_neg hwithin, and_self]

theorem Body.stored_of_not_seen {b : Body} {limit : Int64} (hpos : 0 < limit)
    (hseen : ¬ b.Seen limit) : (b.inspect limit).2.1.getD [] = [] := by
  have hbound : limit.toNatClampNeg + 1 ≤ 2 ^ 63 := by
    have hupper := limit.toInt_lt
    rw [Int64.toNatClampNeg]
    omega
  by_cases hmax : limit = Int64.maxValue
  · -- The successor of the limit is negative, so nothing is read.
    have hread : b.readLimited (limit + 1) = (some [], b) :=
      if_pos ((add_one_le_zero_iff hpos).mpr hmax)
    have hwithin : ¬ limit < .ofNat 0 := by
      rw [lt_ofNat_iff hpos (by decide)]
      omega
    rw [Body.inspect, hread]
    simp only [List.length_nil, if_neg hwithin, Option.getD_some]
  · have hlimit : ¬ limit + 1 ≤ 0 := fun h => hmax ((add_one_le_zero_iff hpos).mp h)
    rw [Body.inspect, readLimited, if_neg hlimit, toNatClampNeg_add_one hpos hmax]
    by_cases hfits : limit.toNatClampNeg + 1 ≤ b.data.length
    · have hlength : (b.data.take (limit.toNatClampNeg + 1)).length = limit.toNatClampNeg + 1 := by
        rw [List.length_take]
        omega
      have hover : limit < .ofNat (b.data.take (limit.toNatClampNeg + 1)).length := by
        by_cases hlast : limit.toNatClampNeg + 1 = 2 ^ 63
        · exfalso
          apply hmax
          rw [← Int64.toInt_inj, Int64.toInt_maxValue]
          rw [Int64.toNatClampNeg] at hlast
          omega
        · rw [lt_ofNat_iff hpos (by omega)]
          omega
      simp only [if_pos hfits, if_pos hover, Option.getD_none]
    · rw [if_neg hfits]
      cases hfailed : b.failed with
      | true => rfl
      | false =>
        have hempty : b.data = [] := by
          by_contra hne
          exact hseen ⟨hne, by omega, hfailed, hmax⟩
        simp only [Bool.false_eq_true, if_false]
        split
        · rfl
        · exact hempty

theorem get_body (r : Request) (gs : Option (Geodb A)) {limit : Int64} (hpos : 0 < limit)
    (name : Str) :
    ((newRequestCtx lib r gs limit).get lib (str "body") name).1 =
      ((r.body.elim [] fun b => (b.inspect limit).1),
        decide (r.body.elim [] (fun b => (b.inspect limit).2.1.getD []) ≠ [])) := by
  have hlimit : (newRequestCtx lib r gs limit).bodyLimit = limit :=
    if_neg (Int64.not_le.mpr hpos)
  unfold RequestCtx.get
  unfold RequestCtx.ensureBody
  rw [hlimit]
  obtain ⟨method, host, remoteAddr, header, requestURI, path, rawQuery, body⟩ := r
  cases body <;> rfl

/-- A condition that asks for something in the body and is satisfied by what the limit
leaves of it is marked exactly if the body is seen. -/
theorem body_condition_hit_iff (hfind : lib.FindsAll) (p : WAFLocationConfig F) (order : KeyOrder)
    {maxBodySize : Int64} (hpos : 0 < maxBodySize) (r : Request) (gs : Option (Geodb A)) {n : Nat}
    {c : WAFCondition} (hc : (conditionsOf p.named.rules)[n]? = some c)
    (hparam : c.param = str "body")
    (hop : Operator.parse lib c.operator = some .contains ∨
      Operator.parse lib c.operator = some .startswith)
    (hsat : c.satisfied lib (r.content.take maxBodySize.toNatClampNeg) true = true) :
    Hit ((p.named.ruleSet lib maxBodySize).inspectAll lib order
        (newRequestCtx lib r gs maxBodySize)).2 n ↔
      ∃ b, r.body = some b ∧ b.Seen maxBodySize := by
  have hshadowed : ¬ Shadowed lib (conditionsOf p.named.rules) c n := by
    rintro ⟨hkeyed, -⟩
    rcases hop with hop | hop <;> simp [WAFCondition.keyed, hop] at hkeyed
  have habsent : ∀ value, c.satisfied lib value false = false := by
    rcases hop with hop | hop <;> simp [WAFCondition.satisfied, satisfies, hop]
  rw [hit_inspectAll_iff_lastName hfind order maxBodySize _ hc, and_iff_left hshadowed,
    WAFCondition.holdsUnder, hparam, get_body r gs hpos]
  cases hbody : r.body with
  | none => simp [habsent]
  | some b =>
    have hcontent : r.content = b.data := by simp [Request.content, hbody]
    rw [hcontent] at hsat
    by_cases hseen : b.Seen maxBodySize
    · obtain ⟨hvalue, hstored⟩ := hseen.inspect hpos
      rw [List.take_of_length_le hseen.fits] at hsat
      simp [hvalue, hstored, hseen, hseen.nonempty, hsat]
    · simp [b.stored_of_not_seen hpos hseen, habsent, hseen]

/-- A request with a body. -/
def bodyRequest (data : String) : Request :=
  { adminRequest "POST" with body := some ⟨str data, false⟩ }

/-- A short body with the word is seen. -/
theorem shortBody_hit :
    Hit ((wordLocation.waf.named.ruleSet plainLibrary 8).inspectAll plainLibrary .asListed
      (newRequestCtx plainLibrary (bodyRequest "select") none 8)).2 0 :=
  (body_condition_hit_iff findsAll_plainLibrary wordLocation.waf .asListed (by decide)
    (bodyRequest "select") none rfl rfl (.inl rfl) (by decide)).mpr
      ⟨_, rfl, ⟨by decide, by decide, rfl, by decide⟩⟩

/-- With more bytes behind the word than the limit leaves, the condition is not marked any
more, and the request passes. -/
theorem paddedBody_not_hit :
    (∃ c, (conditionsOf wordLocation.waf.named.rules)[0]? = some c ∧ c.param = str "body" ∧
      Operator.parse plainLibrary c.operator = some .contains ∧
      c.satisfied plainLibrary ((bodyRequest "select ---").content.take 8) true = true) ∧
    ¬ Hit ((wordLocation.waf.named.ruleSet plainLibrary 8).inspectAll plainLibrary .asListed
      (newRequestCtx plainLibrary (bodyRequest "select ---") none 8)).2 0 ∧
    wordLocation.waf.decision plainLibrary .asListed 8 (bodyRequest "select ---") none =
      (.allow, none) ∧
    (wordLocation.waf.decision plainLibrary .asListed 8 (bodyRequest "select") none).1 =
      .block := by
  refine ⟨⟨_, rfl, rfl, rfl, by decide⟩, ?_, by decide, by decide⟩
  unfold Hit
  decide

end Peretum.Waf
