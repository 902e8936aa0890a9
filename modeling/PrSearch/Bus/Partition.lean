import Mathlib.Data.Rat.Defs
import PrSearch.Lib.Double

/-! # Partitions of a bus

A key is hashed with FNV-1a. The multiplication by the prime is written as a sum of shifts: the shifts
and the exclusive or give signed numbers of thirty-two bits, and the sum is one of doubles. `fnv1a` is
the product that is meant.
-/
namespace PrSearch.Bus

/-! ### The operators of the language -/

/-- The sum of two whole doubles: the double nearest to what they add up to. -/
def add (a b : Int) : Int := (a + b).sign * Lib.Double.nearest (a + b).natAbs

/-- `^` -/
def bitXor (a b : Int) : Int := (BitVec.ofInt 32 a ^^^ BitVec.ofInt 32 b).toInt

/-- `<<` -/
def shiftLeft (a : Int) (count : Nat) : Int := (BitVec.ofInt 32 a <<< count).toInt

/-- `>>> 0` -/
def unsigned (a : Int) : Int := (BitVec.ofInt 32 a).toNat

/-! ### The hash -/

/-- What is shifted and added to the number itself. -/
def shifts : List Nat := [1, 4, 7, 8, 24]

/-- The sums of one turn, the last of which is the hash before `>>> 0`. -/
def sums (plus : Int → Int → Int) (mixed : Int) : List Int :=
  (shifts.map (shiftLeft mixed)).scanl plus mixed

def hashStep (hash : Int) (code : UInt16) : Int :=
  let mixed := bitXor hash code.toNat
  unsigned ((shifts.map (shiftLeft mixed)).foldl add mixed)

/-- `0x811c9dc5` -/
def offsetBasis : Nat := 2166136261

def hashPartitionKey (partitionKey : List UInt16) : Int :=
  unsigned (partitionKey.foldl hashStep offsetBasis)

inductive PartitionError
  /-- The message shows the number. -/
  | count (count : Option Rat)
  | emptyKey
  deriving DecidableEq

/-- `count` is `none` when it is `NaN` or infinite. -/
def partitionFor (partitionKey : List UInt16) (count : Option Rat) : Except PartitionError Int :=
  match count with
  | none => .error (.count count)
  | some number =>
      if number.den ≠ 1 ∨ number < 1 then .error (.count count)
      else if partitionKey = [] then .error .emptyKey
      else .ok (hashPartitionKey partitionKey % number.num)

/-! ### Sums without rounding -/

theorem nearest_of_lt {n : Nat} (small : n < 2 ^ 53) : Lib.Double.nearest n = n := by
  refine Lib.Double.nearest_of_dvd ?_
  have bits : n.log2 - 52 = 0 := by
    by_cases zero : n = 0
    · simp [zero]
    · have less := (Nat.log2_lt zero).mpr small
      omega
  rw [Lib.Double.unit, bits, pow_zero]
  exact Nat.one_dvd n

theorem add_of_lt {a b : Int} (small : (a + b).natAbs < 2 ^ 53) : add a b = a + b := by
  rw [add, nearest_of_lt small, Int.sign_mul_natAbs]

/-- Sums of small numbers are what the numbers add up to. -/
theorem scanl_add {terms : List Int} {start : Int} (each : ∀ term ∈ terms, term.natAbs ≤ 2 ^ 31)
    (room : start.natAbs + 2 ^ 31 * terms.length < 2 ^ 53) :
    terms.scanl add start = terms.scanl (· + ·) start ∧
      ∀ sum ∈ terms.scanl (· + ·) start, sum.natAbs < 2 ^ 53 := by
  induction terms generalizing start with
  | nil =>
    refine ⟨rfl, fun sum is => ?_⟩
    rw [List.scanl_nil, List.mem_singleton] at is
    rw [is]
    omega
  | cons term terms ih =>
    have first := each term List.mem_cons_self
    rw [List.length_cons] at room
    have exact_ : add start term = start + term := add_of_lt (by omega)
    obtain ⟨same, small⟩ := @ih (start + term)
      (fun other inside => each other (List.mem_cons_of_mem _ inside)) (by omega)
    rw [List.scanl_cons, List.scanl_cons, exact_, same]
    refine ⟨rfl, fun sum is => ?_⟩
    rcases List.mem_cons.mp is with rfl | later
    · omega
    · exact small sum later

theorem foldl_of_scanl_eq {α β : Type} {f g : β → α → β} {terms : List α} {start : β}
    (same : terms.scanl f start = terms.scanl g start) : terms.foldl f start = terms.foldl g start := by
  have last := congrArg List.getLast? same
  simpa [List.getLast?_scanl] using last

/-- A signed number of thirty-two bits. -/
theorem natAbs_toInt_le (x : BitVec 32) : x.toInt.natAbs ≤ 2 ^ 31 := by
  have low := x.le_toInt
  have high := x.toInt_lt
  omega

theorem natAbs_shiftLeft_le {mixed : Int} :
    ∀ term ∈ shifts.map (shiftLeft mixed), term.natAbs ≤ 2 ^ 31 := by
  intro term inside
  obtain ⟨count, _, rfl⟩ := List.mem_map.mp inside
  exact natAbs_toInt_le _

/-- No sum of a turn is rounded. -/
theorem sums_exact (x : BitVec 32) :
    sums add x.toInt = sums (· + ·) x.toInt ∧ ∀ sum ∈ sums (· + ·) x.toInt, sum.natAbs < 2 ^ 53 := by
  refine scanl_add natAbs_shiftLeft_le ?_
  have start := natAbs_toInt_le x
  simp only [shifts, List.map_cons, List.map_nil, List.length_cons, List.length_nil]
  omega

/-! ### The product -/

/-- One step of FNV-1a with thirty-two bits. -/
def fnvStep (h : Nat) (c : UInt16) : Nat := ((h ^^^ c.toNat) * 16777619) % 2 ^ 32

def fnv1a (key : List UInt16) : Nat := key.foldl fnvStep 2166136261

theorem ofInt_shiftLeft (x : BitVec 32) (count : Nat) :
    BitVec.ofInt 32 (shiftLeft x.toInt count) = x <<< count := by
  rw [shiftLeft, BitVec.ofInt_toInt, BitVec.ofInt_toInt]

/-- The shifts add up to the prime. -/
theorem shifts_eq_mul (x : BitVec 32) :
    x + x <<< 1 + x <<< 4 + x <<< 7 + x <<< 8 + x <<< 24 = x * 16777619#32 := by
  have prime : (16777619#32 : BitVec 32) = 1#32 + BitVec.twoPow 32 1 + BitVec.twoPow 32 4 +
      BitVec.twoPow 32 7 + BitVec.twoPow 32 8 + BitVec.twoPow 32 24 := by decide
  simp only [prime, BitVec.shiftLeft_eq_mul_twoPow, BitVec.mul_add, BitVec.mul_one]

theorem unsigned_sum (x : BitVec 32) :
    unsigned ((shifts.map (shiftLeft x.toInt)).foldl add x.toInt) = (x * 16777619#32).toNat := by
  rw [foldl_of_scanl_eq (sums_exact x).1, unsigned]
  simp only [shifts, List.map_cons, List.map_nil, List.foldl_cons, List.foldl_nil, BitVec.ofInt_add,
    ofInt_shiftLeft, BitVec.ofInt_toInt, shifts_eq_mul]

variable {h : Nat}

theorem bitXor_eq (small : h < 2 ^ 32) (c : UInt16) :
    bitXor h c.toNat = (BitVec.ofNat 32 (h ^^^ c.toNat)).toInt := by
  rw [bitXor, BitVec.ofInt_natCast, BitVec.ofInt_natCast]
  congr 1
  apply BitVec.eq_of_toNat_eq
  have code : c.toNat < 2 ^ 32 := c.toNat_lt.trans (by decide)
  rw [BitVec.toNat_xor, BitVec.toNat_ofNat, BitVec.toNat_ofNat, BitVec.toNat_ofNat,
    Nat.mod_eq_of_lt small, Nat.mod_eq_of_lt code, Nat.mod_eq_of_lt (Nat.xor_lt_two_pow small code)]

theorem fnvStep_lt (h : Nat) (c : UInt16) : fnvStep h c < 2 ^ 32 := Nat.mod_lt _ (Nat.two_pow_pos 32)

-- The factors are variables here: the kernel would count up to a number that it meets as a literal.
theorem toNat_ofNat_mul (n k : Nat) :
    (BitVec.ofNat 32 n * BitVec.ofNat 32 k).toNat = n * k % 2 ^ 32 := by
  rw [BitVec.toNat_mul, BitVec.toNat_ofNat, BitVec.toNat_ofNat, Nat.mod_mul_mod, Nat.mul_mod_mod]

/-- A turn of the loop is a step of FNV-1a. -/
theorem hashStep_eq (small : h < 2 ^ 32) (c : UInt16) : hashStep h c = fnvStep h c := by
  rw [hashStep, bitXor_eq small, unsigned_sum, toNat_ofNat_mul, fnvStep]

theorem foldl_hashStep {key : List UInt16} (small : h < 2 ^ 32) :
    key.foldl hashStep h = (key.foldl fnvStep h : Nat) ∧ key.foldl fnvStep h < 2 ^ 32 := by
  induction key generalizing h with
  | nil => exact ⟨rfl, small⟩
  | cons c key ih =>
    rw [List.foldl_cons, List.foldl_cons, hashStep_eq small]
    exact ih (fnvStep_lt h c)

theorem foldl_offsetBasis (key : List UInt16) :
    key.foldl hashStep offsetBasis = (fnv1a key : Int) ∧ fnv1a key < 2 ^ 32 :=
  foldl_hashStep (by decide)

theorem hashPartitionKey_eq (key : List UInt16) : hashPartitionKey key = fnv1a key := by
  obtain ⟨same, small⟩ := foldl_offsetBasis key
  rw [hashPartitionKey, same, unsigned, BitVec.ofInt_natCast, BitVec.toNat_ofNat, Nat.mod_eq_of_lt small]

example : hashPartitionKey [0x61] = 3826002220 := by decide

/-- What a turn of the loop mixes is a signed number of thirty-two bits. -/
theorem exists_mixed (hash : Int) (code : UInt16) : ∃ x : BitVec 32, bitXor hash code.toNat = x.toInt :=
  ⟨_, rfl⟩

/-- The hash is FNV-1a, no sum in any turn is rounded or leaves the numbers that doubles hold exactly,
and there is a partition for every key that is not empty. -/
theorem hashPartitionKey_fnv1a (key : List UInt16) :
    hashPartitionKey key = fnv1a key ∧
      (∀ front code back, key = front ++ code :: back →
        let mixed := bitXor (front.foldl hashStep offsetBasis) code.toNat
        sums add mixed = sums (· + ·) mixed ∧ ∀ sum ∈ sums (· + ·) mixed, sum.natAbs < 2 ^ 53) ∧
      ∀ count : Nat, 1 ≤ count → key ≠ [] →
        ∃ partition : Int, partitionFor key (some count) = .ok partition ∧ 0 ≤ partition ∧
          partition < count := by
  refine ⟨hashPartitionKey_eq key, fun front code _ _ => ?_, fun count some_ nonempty => ?_⟩
  · obtain ⟨x, is⟩ := exists_mixed (front.foldl hashStep offsetBasis) code
    simp only [is]
    exact sums_exact x
  · refine ⟨hashPartitionKey key % count, ?_, Int.emod_nonneg _ (by omega),
      Int.emod_lt_of_pos _ (by omega)⟩
    have whole : ¬ ((count : Rat).den ≠ 1 ∨ (count : Rat) < 1) := by
      simp only [Rat.den_natCast, ne_eq, not_true_eq_false, false_or, not_lt]
      exact_mod_cast some_
    simp only [partitionFor, if_neg whole, if_neg nonempty, Rat.num_natCast]

end PrSearch.Bus
