import Mathlib.Algebra.Group.Nat.Defs
import SsaCodegen.Flow.Words
/-! What words hold. The operations on words are those on sets of numbers, within as many words
as the sets have, and the scan of the bits lists the members of a set in their order. -/
namespace SsaCodegen
namespace Words
variable {s t : Words} {v u n : Nat}

theorem testBelow (inside : s.test v = true) : v < 64 * s.length := by
  unfold test at inside
  split at inside
  · rename_i word found
    have := (List.getElem?_eq_some_iff.mp found).1
    omega
  · cases inside

@[simp] theorem lengthEmpty : (empty n).length = n := List.length_replicate

@[simp] theorem lengthInsert : (s.insert v).length = s.length := List.length_modify ..

theorem lengthUnion (same : s.length = n) (also : t.length = n) : (s.union t).length = n := by
  rw [union, List.length_zipWith, same, also, Nat.min_self]

theorem lengthMinus (same : s.length = n) (also : t.length = n) : (s.minus t).length = n := by
  rw [minus, List.length_zipWith, same, also, Nat.min_self]

@[simp] theorem testEmpty : (empty n).test v = false := by
  rw [test, empty, List.getElem?_replicate]
  split
  · rename_i word found
    obtain ⟨-, zero⟩ := Option.ite_none_right_eq_some.mp found
    rw [← Option.some.inj zero]
    exact BitVec.getLsbD_zero
  · rfl

theorem testInsert (room : v < 64 * s.length) : (s.insert v).test u = (s.test u || u == v) := by
  have word : v / 64 < s.length := by omega
  have bit (w : Nat) (low : w < 64) : (1#64 <<< (v % 64)).getLsbD w = decide (w = v % 64) := by
    rw [BitVec.getLsbD_shiftLeft, BitVec.getLsbD_one]
    have : v % 64 < 64 := Nat.mod_lt _ (by decide)
    by_cases same : w = v % 64
    · simp [same, this]
    · by_cases before : w < v % 64
      · simp [same, before]
      · simp [same, show w - v % 64 ≠ 0 by omega]
  have low : u % 64 < 64 := Nat.mod_lt _ (by decide)
  rw [test, test, insert, List.getElem?_modify]
  by_cases here : v / 64 = u / 64
  · have found : s[u / 64]? = some s[u / 64] := List.getElem?_eq_getElem (here ▸ word)
    simp only [here, if_true, found, Option.map_some, Option.map_eq_map, BitVec.getLsbD_or,
      bit _ low]
    congr 1
    rw [Bool.eq_iff_iff, decide_eq_true_eq, beq_iff_eq]
    omega
  · have other : (u == v) = false := by
      rw [beq_eq_false_iff_ne]
      rintro rfl
      exact here rfl
    rw [other, Bool.or_false]
    cases s[u / 64]? <;> simp [here]

theorem testUnion (same : s.length = t.length) : (s.union t).test v = (s.test v || t.test v) := by
  rw [union, test, test, test, List.getElem?_zipWith]
  by_cases word : v / 64 < s.length
  · rw [List.getElem?_eq_getElem word, List.getElem?_eq_getElem (same ▸ word)]
    exact BitVec.getLsbD_or
  · rw [List.getElem?_eq_none (Nat.le_of_not_lt word),
      List.getElem?_eq_none (same ▸ Nat.le_of_not_lt word)]
    rfl

theorem testMinus (same : s.length = t.length) : (s.minus t).test v = (s.test v && !t.test v) := by
  have low : v % 64 < 64 := Nat.mod_lt _ (by decide)
  rw [minus, test, test, test, List.getElem?_zipWith]
  by_cases word : v / 64 < s.length
  · rw [List.getElem?_eq_getElem word, List.getElem?_eq_getElem (same ▸ word)]
    simp only [BitVec.getLsbD_and, BitVec.getLsbD_not, low, decide_true, Bool.true_and]
  · rw [List.getElem?_eq_none (Nat.le_of_not_lt word),
      List.getElem?_eq_none (same ▸ Nat.le_of_not_lt word)]
    rfl

theorem ext (length : s.length = t.length) (same : ∀ v, s.test v = t.test v) : s = t := by
  refine List.ext_getElem length fun w inside inside' => ?_
  refine BitVec.eq_of_getLsbD_eq fun k low => ?_
  have here := same (64 * w + k)
  rwa [test, test, show (64 * w + k) / 64 = w by omega, show (64 * w + k) % 64 = k by omega,
    List.getElem?_eq_getElem inside, List.getElem?_eq_getElem inside'] at here

theorem memberBeyond (length : s.length = t.length) (within : ∀ v, s.test v = true → t.test v = true)
    (differ : s ≠ t) : ∃ v, t.test v = true ∧ s.test v = false := by
  refine Classical.byContradiction fun none => differ (ext length fun v => ?_)
  cases here : s.test v with
  | true => exact (within v here).symm
  | false =>
    cases there : t.test v with
    | true => exact absurd ⟨v, there, here⟩ none
    | false => rfl

section Bits
variable {x : BitVec 64}

theorem splitLowest (set : x ≠ 0#64) : x.ctz.toNat < 64 ∧
    ∃ high, x.toNat = 2 ^ (x.ctz.toNat + 1) * high + 2 ^ x.ctz.toNat := by
  have here : x.toNat.testBit x.ctz.toNat = true := BitVec.getLsbD_true_ctz_of_ne_zero set
  have below (i : Nat) (low : i < x.ctz.toNat) : x.toNat.testBit i = false :=
    BitVec.getLsbD_false_of_lt_ctz low
  generalize x.ctz.toNat = k at here below
  refine ⟨BitVec.lt_of_getLsbD here, x.toNat / 2 ^ (k + 1), ?_⟩
  · have zero : x.toNat % 2 ^ k = 0 := by
      refine Nat.eq_of_testBit_eq fun i => ?_
      rw [Nat.testBit_mod_two_pow, Nat.zero_testBit]
      by_cases low : i < k
      · rw [below i low, Bool.and_false]
      · simp [low]
    have rest : x.toNat % 2 ^ (k + 1) = 2 ^ k := by
      rw [Nat.testBit_eq_decide_div_mod_eq, decide_eq_true_eq] at here
      rw [Nat.mod_pow_succ, zero, here, Nat.zero_add, Nat.mul_one]
    calc x.toNat = 2 ^ (k + 1) * (x.toNat / 2 ^ (k + 1)) + x.toNat % 2 ^ (k + 1) :=
          (Nat.div_add_mod _ _).symm
      _ = _ := by rw [rest]

theorem clearLowest (set : x ≠ 0#64) (i : Nat) :
    (x &&& (x - 1#64)).getLsbD i = (x.getLsbD i && decide (i ≠ x.ctz.toNat)) := by
  obtain ⟨low, high, split⟩ := splitLowest set
  generalize x.ctz.toNat = k at low split
  have half : 0 < 2 ^ k := Nat.two_pow_pos k
  have double : 2 ^ (k + 1) = 2 * 2 ^ k := Nat.pow_succ'
  have less : (x - 1#64).toNat = 2 ^ (k + 1) * high + (2 ^ k - 1) := by
    have bound := x.isLt
    rw [BitVec.toNat_sub_of_le (by rw [BitVec.le_def, BitVec.toNat_ofNat]; omega), split,
      BitVec.toNat_ofNat]
    omega
  rw [BitVec.getLsbD_and, BitVec.getLsbD, BitVec.getLsbD, less, split,
    Nat.testBit_two_pow_mul_add _ (by omega), Nat.testBit_two_pow_mul_add _ (by omega),
    Nat.testBit_two_pow_sub_one, Nat.testBit_two_pow]
  by_cases before : i < k + 1
  · simp only [before, if_true]
    by_cases same : i = k
    · simp [same]
    · simp [same, Ne.symm same]
  · simp only [before, if_false, Bool.and_self]
    simp [show i ≠ k by omega]

theorem memBitPlaces {left i : Nat} (cleared : ∀ i < 64 - left, x.getLsbD i = false) :
    i ∈ bitPlaces left x ↔ x.getLsbD i = true := by
  induction left generalizing x with
  | zero =>
    have nothing : x = 0#64 := BitVec.eq_of_getLsbD_eq fun k low => by
      rw [cleared k low, BitVec.getLsbD_zero]
    simp [bitPlaces, nothing]
  | succ left ih =>
    unfold bitPlaces
    split
    · rename_i zero
      simp [zero]
    · rename_i set
      have lowest := BitVec.getLsbD_true_ctz_of_ne_zero set
      have above : 64 - (left + 1) ≤ x.ctz.toNat := Nat.le_of_not_lt fun below =>
        Bool.noConfusion ((cleared _ below).symm.trans lowest)
      have after : ∀ i < 64 - left, (x &&& (x - 1#64)).getLsbD i = false := by
        intro i low
        rw [clearLowest set]
        by_cases same : i = x.ctz.toNat
        · simp [same]
        · rw [BitVec.getLsbD_false_of_lt_ctz (by omega), Bool.false_and]
      rw [List.mem_cons, ih after, clearLowest set, Bool.and_eq_true, decide_eq_true_eq]
      constructor
      · rintro (rfl | ⟨here, -⟩)
        · exact lowest
        · exact here
      · intro here
        by_cases same : i = x.ctz.toNat
        · exact .inl same
        · exact .inr ⟨here, same⟩

theorem ascendingBitPlaces (left : Nat) (x : BitVec 64) : (bitPlaces left x).Pairwise (· < ·) := by
  have above (left k : Nat) (x : BitVec 64) (cleared : ∀ i < k, x.getLsbD i = false) :
      ∀ i ∈ bitPlaces left x, k ≤ i := by
    induction left generalizing x with
    | zero => exact fun _ listed => nomatch listed
    | succ left ih =>
      unfold bitPlaces
      split
      · exact fun _ listed => nomatch listed
      · rename_i set
        have lowest := BitVec.getLsbD_true_ctz_of_ne_zero set
        refine List.forall_mem_cons.mpr ⟨Nat.le_of_not_lt fun below =>
          Bool.noConfusion ((cleared _ below).symm.trans lowest), ih _ fun i low => ?_⟩
        rw [clearLowest set, cleared i low, Bool.false_and]
  induction left generalizing x with
  | zero => exact .nil
  | succ left ih =>
    unfold bitPlaces
    split
    · exact .nil
    · rename_i set
      refine List.pairwise_cons.mpr ⟨above left (x.ctz.toNat + 1) _ fun i low => ?_, ih _⟩
      rw [clearLowest set]
      by_cases same : i = x.ctz.toNat
      · simp [same]
      · rw [BitVec.getLsbD_false_of_lt_ctz (by omega), Bool.false_and]

end Bits

theorem memMembers : v ∈ s.members ↔ s.test v = true := by
  have places (word : BitVec 64) (k : Nat) : k ∈ bitPlaces 64 word ↔ word.getLsbD k = true :=
    memBitPlaces fun i low => absurd low (by omega)
  simp only [members, List.mem_flatMap, Prod.exists, List.mem_zipIdx_iff_getElem?, List.mem_map,
    places, test]
  constructor
  · rintro ⟨word, w, found, k, here, rfl⟩
    have low : k < 64 := BitVec.lt_of_getLsbD here
    rwa [show (64 * w + k) / 64 = w by omega, found, show (64 * w + k) % 64 = k by omega]
  · intro inside
    split at inside
    · rename_i word found
      exact ⟨word, v / 64, found, v % 64, inside, Nat.div_add_mod v 64⟩
    · cases inside

theorem ascendingMembers (s : Words) : s.members.Pairwise (· < ·) := by
  rw [members, List.pairwise_flatMap]
  constructor
  · intro word listed
    rw [List.pairwise_map]
    exact (ascendingBitPlaces 64 word.1).imp fun less => Nat.add_lt_add_left less _
  · have order : s.zipIdx.Pairwise fun a b => a.2 < b.2 := by
      rw [List.pairwise_iff_getElem]
      intro i j below above before
      simpa using before
    refine order.imp fun {a b} before x left y right => ?_
    obtain ⟨k, here, rfl⟩ := List.mem_map.mp left
    obtain ⟨m, -, rfl⟩ := List.mem_map.mp right
    have low := BitVec.lt_of_getLsbD ((memBitPlaces fun i low => absurd low (by omega)).mp here)
    omega

end Words
end SsaCodegen
