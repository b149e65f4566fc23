import LeftHand.Proofs.Exec.Random

/-! How many draws make a random number. -/

namespace LeftHand

section Joined

variable {ι κ : Type}

/-- Bits are led to places and joined there: a bit of the result is set if one that is led to it
is. -/
def Joins (place : ι → Option κ) (bits : ι → Bool) (result : κ → Bool) : Prop :=
  ∀ p, result p = true ↔ ∃ q, place q = some p ∧ bits q = true

/-- The ways to set the bits that meet at one place: if none of them may be set there is one, and
otherwise all but one. -/
theorem card_meeting [Finite ι] (result : Bool) :
    Nat.card {bits : ι → Bool // result = true ↔ ∃ q, bits q = true} =
      if result then 2 ^ Nat.card ι - 1 else 1 := by
  have clear (bits : ι → Bool) : (∃ q, bits q = true) ↔ bits ≠ fun _ => false := by
    simp [funext_iff]
  cases result with
  | false =>
    rw [if_neg Bool.false_ne_true, Nat.card_eq_one_iff_exists]
    refine ⟨⟨fun _ => false, by simp⟩, fun bits => Subtype.ext ?_⟩
    have unset := bits.2
    rw [clear] at unset
    simpa using unset
  | true =>
    have : Fintype ι := Fintype.ofFinite ι
    classical
    rw [if_pos rfl]
    calc Nat.card {bits : ι → Bool // true = true ↔ ∃ q, bits q = true}
      _ = Nat.card {bits : ι → Bool // bits ≠ fun _ => false} :=
        Nat.card_congr (Equiv.subtypeEquivRight fun bits => by rw [clear]; simp)
      _ = Fintype.card (ι → Bool) - 1 := by
        rw [Nat.card_eq_fintype_card, Fintype.card_subtype_compl, Fintype.card_subtype_eq]
      _ = 2 ^ Nat.card ι - 1 := by simp

/-- Bits can be chosen for each place on its own, and for those that are led nowhere. -/
def splitJoins (place : ι → Option κ) (result : κ → Bool) :
    {bits // Joins place bits result} ≃ ((target : Option κ) →
      {bits : {q // place q = target} → Bool //
        ∀ p, target = some p → (result p = true ↔ ∃ q, bits q = true)}) where
  toFun bits target := ⟨fun q => bits.1 q.1, by
    rintro p rfl
    rw [bits.2 p]
    simp⟩
  invFun parts := ⟨fun q => (parts (place q)).1 ⟨q, rfl⟩, fun p => by
    have moved : ∀ {q : ι} {target : Option κ} (here : place q = target),
        (parts (place q)).1 ⟨q, rfl⟩ = (parts target).1 ⟨q, here⟩ := by
      rintro q _ rfl
      rfl
    rw [(parts (some p)).2 p rfl]
    exact ⟨fun ⟨⟨q, here⟩, set⟩ => ⟨q, here, (moved here).trans set⟩,
      fun ⟨q, here, set⟩ => ⟨⟨q, here⟩, (moved here).symm.trans set⟩⟩⟩
  left_inv bits := rfl
  right_inv parts := by
    funext target
    refine Subtype.ext (funext ?_)
    rintro ⟨q, rfl⟩
    rfl

/-- The number of ways to a result, as a product over the places. -/
theorem card_joins [Finite ι] [Fintype κ] (place : ι → Option κ) (result : κ → Bool) :
    Nat.card {bits // Joins place bits result} = 2 ^ Nat.card {q // place q = none} *
      ∏ p, if result p then 2 ^ Nat.card {q // place q = some p} - 1 else 1 := by
  rw [Nat.card_congr (splitJoins place result), Nat.card_pi, Fintype.prod_option]
  congr 1
  · -- Nothing is asked of the bits that are led nowhere.
    rw [Nat.card_congr (Equiv.subtypeUnivEquiv fun _ p => by simp), Nat.card_fun]
    simp
  · refine Finset.prod_congr rfl fun p _ => ?_
    rw [← card_meeting]
    exact Nat.card_congr (Equiv.subtypeEquivRight fun bits => by simp)

end Joined

section Places

/-- The place of a random number to which a bit of a draw goes, if there is one. -/
def place (source : Fin 5 × Fin 15) : Option (Fin 63) :=
  if down : 13 * source.1.val ≤ 48 + source.2.val then some ⟨48 + source.2.val - 13 * source.1.val, by omega⟩
  else none

/-- The places that two draws reach. -/
def sharedPlaces : Finset (Fin 63) :=
  {9, 10, 22, 23, 35, 36, 48, 49}

theorem place_eq_some {source : Fin 5 × Fin 15} {p : Fin 63} :
    place source = some p ↔ p.val + 13 * source.1.val = 48 + source.2.val := by
  rw [place]
  split
  · rw [Option.some.injEq, Fin.ext_iff]
    dsimp only
    omega
  · simp only [reduceCtorEq, false_iff]
    omega

theorem card_place_none : Nat.card {source // place source = none} = 4 := by
  rw [Nat.card_eq_fintype_card]
  -- The lowest four bits of the last draw fall off.
  decide +kernel

/-- A draw has one bit at most for a place. -/
def drawsReaching (p : Fin 63) : {source // place source = some p} ≃
    {i : Fin 5 // 48 ≤ p.val + 13 * i.val ∧ p.val + 13 * i.val < 63} where
  toFun source := ⟨source.1.1, by have := place_eq_some.mp source.2; omega⟩
  invFun i := ⟨(i.1, ⟨p.val + 13 * i.1.val - 48, by omega⟩), place_eq_some.mpr (by dsimp only; omega)⟩
  left_inv source := by
    have := place_eq_some.mp source.2
    ext <;> dsimp only
    omega
  right_inv _ := rfl

theorem card_place_some (p : Fin 63) :
    Nat.card {source // place source = some p} = if p ∈ sharedPlaces then 2 else 1 := by
  rw [Nat.card_congr (drawsReaching p), Nat.card_eq_fintype_card]
  revert p
  decide +kernel

/-- The factors of the places: three for a bit that two draws may set, and one for all else. -/
theorem card_joins_place (result : Fin 63 → Bool) :
    Nat.card {bits // Joins place bits result} =
      16 * 3 ^ (sharedPlaces.filter fun p => result p = true).card := by
  have factor (p : Fin 63) : (if result p then 2 ^ Nat.card {source // place source = some p} - 1 else 1) =
      if p ∈ sharedPlaces.filter (fun p => result p = true) then 3 else 1 := by
    rw [card_place_some]
    by_cases shared : p ∈ sharedPlaces <;> simp [shared]
  rw [card_joins, card_place_none, Finset.prod_congr rfl fun p _ => factor p, Finset.prod_ite_mem,
    Finset.univ_inter, Finset.prod_const]
  rfl

end Places

section Ways

variable {block : Ir.Block} {value : Nat} {session : Session}

/-- In how many ways five blocks of fifteen bits can be drawn so that a number comes out, whatever
the other bits of the draws are. -/
noncomputable def Ir.Block.ways (block : Ir.Block) (value : Nat) : Nat :=
  Nat.card {drawn : Fin 5 → BitVec 15 // ∀ draws : Fin 5 → BitVec 32,
    (∀ i, (draws i).setWidth 15 = drawn i) → block.Yields draws (BitVec.ofNat 64 value)}

/-- Blocks of fifteen bits, bit by bit. -/
def bitsOf : (Fin 5 → BitVec 15) ≃ (Fin 5 × Fin 15 → Bool) where
  toFun drawn source := (drawn source.1).getLsbD source.2
  invFun bits i := BitVec.ofFnLE fun j => bits (i, j)
  left_inv drawn := by
    funext i
    refine BitVec.eq_of_getLsbD_eq fun j within => ?_
    simp [within]
  right_inv bits := by
    funext source
    simp

theorem yields_iff (yields : ∀ draws, block.Yields draws (assemble draws)) (draws : Fin 5 → BitVec 32)
    (number : BitVec 64) : block.Yields draws number ↔ assemble draws = number := by
  refine ⟨fun other => ?_, fun same => same ▸ yields draws⟩
  -- These numbers can be dealt, so a single number comes out.
  obtain ⟨oracle, deals⟩ := Ir.exists_deals [] (fun _ => 0) (List.ofFn draws)
  let machine : Ir.Machine := ⟨fun _ => none, fun _ => 0, []⟩
  have one := yields draws oracle machine deals
  rw [other oracle machine deals] at one
  cases one
  rfl

/-- A number is made of draws exactly if their bits, joined at their places, are its bits. -/
theorem assemble_iff_joins (small : value < 2 ^ 63) {drawn : Fin 5 → BitVec 15}
    {draws : Fin 5 → BitVec 32} (low : ∀ i, (draws i).setWidth 15 = drawn i) :
    assemble draws = BitVec.ofNat 64 value ↔ Joins place (bitsOf drawn) fun p => value.testBit p := by
  have bits (p : Fin 63) : (∃ source, place source = some p ∧ bitsOf drawn source = true) ↔
      (assemble draws).getLsbD p = true := by
    rw [getLsbD_assemble]
    simp only [Prod.exists, place_eq_some]
    refine exists_congr fun i => exists_congr fun j => and_congr_right fun _ => ?_
    simp [bitsOf, ← low i]
  have number (p : Nat) (within : p < 64) : (BitVec.ofNat 64 value).getLsbD p = value.testBit p := by
    rw [BitVec.getLsbD_ofNat, decide_eq_true within, Bool.true_and]
  constructor
  · intro same p
    rw [bits, same, number p (by omega)]
  · intro joins
    refine BitVec.eq_of_getLsbD_eq fun p within => ?_
    rw [number p within, Bool.eq_iff_iff]
    by_cases below : p < 63
    · exact ((joins ⟨p, below⟩).trans (bits ⟨p, below⟩)).symm
    · -- At the place of the sign there is no bit.
      obtain rfl : p = 63 := by omega
      rw [getLsbD_assemble, Nat.testBit_lt_two_pow small]
      simp only [Bool.false_eq_true, iff_false, not_exists, not_and]
      omega

/-- How many bits a number has at places that two draws reach. -/
def sharedBits (value : Nat) : Nat :=
  (sharedPlaces.filter fun p => value.testBit p.val = true).card

theorem ways_eq (yields : ∀ draws, block.Yields draws (assemble draws)) (small : value < 2 ^ 63) :
    block.ways value = 16 * 3 ^ sharedBits value := by
  rw [Ir.Block.ways, sharedBits, ← card_joins_place]
  refine Nat.card_congr (bitsOf.subtypeEquiv fun drawn => ?_)
  simp only [yields_iff yields]
  constructor
  · intro all
    -- The blocks themselves are draws, with nothing above them.
    have low (i : Fin 5) : ((drawn i).setWidth 32).setWidth 15 = drawn i := by simp
    exact (assemble_iff_joins small low).mp (all _ low)
  · exact fun joins draws low => (assemble_iff_joins small low).mpr joins

/-- Of the blocks of fifteen bits, sixteen times a power of three make a random number, and the
exponent is the number of its bits at places that two draws reach. So two numbers are equally likely
exactly if they have equally many bits there. -/
theorem random_ways (takes : session.TakesRandom) : ∃ after block,
    Gives Predefined.random.add session () after ∧ after.HasRandom block ∧
      (∀ value ≤ 2 ^ 63 - 1, block.ways value = 16 * 3 ^ sharedBits value) ∧
      ∀ value ≤ 2 ^ 63 - 1, ∀ other ≤ 2 ^ 63 - 1,
        block.ways value = block.ways other ↔ sharedBits value = sharedBits other := by
  obtain ⟨after, added, has⟩ := takes.exists_random
  have ways {value : Nat} (small : value ≤ 2 ^ 63 - 1) :=
    ways_eq yields_randomBlock (show value < 2 ^ 63 by omega)
  refine ⟨after, randomBlock, added, has, fun value small => ways small, fun value small other others => ?_⟩
  rw [ways small, ways others, Nat.mul_right_inj (by decide), Nat.pow_right_inj (by decide)]

/-- The largest number has all bits and zero has none, so it is drawn 6561 times as often. -/
theorem random_ways_extremes : declaredRandom.TakesRandom ∧ ∃ after block,
    Gives Predefined.random.add declaredRandom () after ∧ after.HasRandom block ∧
      block.ways 0 = 16 ∧ block.ways (2 ^ 63 - 1) = 16 * 6561 := by
  obtain ⟨after, block, added, has, ways, _⟩ := random_ways takesRandom_declaredRandom
  have none : sharedBits 0 = 0 := by decide
  have all : sharedBits (2 ^ 63 - 1) = 8 := by decide
  refine ⟨takesRandom_declaredRandom, after, block, added, has, ?_, ?_⟩
  · rw [ways 0 (Nat.zero_le _), none]
    rfl
  · rw [ways _ (Nat.le_refl _), all]
    rfl

/-- Not all numbers are equally likely: at the lowest place that two draws reach there are three
ways to set a bit, and one way not to. -/
theorem not_equally_likely : ∃ after block,
    Gives Predefined.random.add {} () after ∧ after.HasRandom block ∧
      ¬ ∀ value ≤ 2 ^ 63 - 1, ∀ other ≤ 2 ^ 63 - 1, block.ways value = block.ways other := by
  have takes : Session.TakesRandom {} := ⟨rfl, by simp [Session.global?]⟩
  obtain ⟨after, added, has⟩ := takes.exists_random
  have none : sharedBits 0 = 0 := by decide
  have one : sharedBits (2 ^ 9) = 1 := by decide
  refine ⟨after, randomBlock, added, has, fun same => ?_⟩
  have differ := same 0 (by decide) (2 ^ 9) (by decide)
  rw [ways_eq yields_randomBlock (by decide), ways_eq yields_randomBlock (by decide), none, one]
    at differ
  exact absurd differ (by decide)

end Ways

end LeftHand
