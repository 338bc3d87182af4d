import Beellama.Verified.BitMemory

/-!
# The packed tiles of a KVarN record

`llama_kvarn_pack_bits`, `llama_kvarn_unpack_bits_value` and `llama_kvarn_make_layout`.

* `unpack_packBits` — a value that was packed is read back, reduced to its width.
* `packBits_frame` — packing writes the packed bytes and no others.
* `layout_apart`, `layout_inside` — the regions of a record do not overlap and lie inside it.

A failed assertion and the overflow of an `int` are `none`.
-/

namespace Beellama.Ports

open Beellama.Verified List

/-! ## The source -/

/-- `llama_kvarn_valid_bits` -/
def kvarnValidBits (bits : Nat) : Bool :=
  bits == 2 || bits == 3 || bits == 4 || bits == 5 || bits == 6 || bits == 8

/-- The conversion of an `int` to `size_t`. -/
def toSize (n : Int) : Nat := (n % 2 ^ 64).toNat

/-- A sum of two numbers of type `size_t`. -/
def addSize (a b : Nat) : Nat := (a + b) % 2 ^ 64

/-- A product of two numbers of type `int`; an overflow has no value. -/
def mulInt (a b : Int) : Option Int := if -2 ^ 31 ≤ a * b ∧ a * b < 2 ^ 31 then some (a * b) else none

/-- `llama_kvarn_packed_bytes` -/
def kvarnPackedBytes (nValues : Int) (bits : Nat) : Option Nat :=
  if 0 ≤ nValues ∧ kvarnValidBits bits then some (addSize (toSize nValues * bits) 7 / 8) else none

/-- `std::memset` with zeros. -/
def clearBytes (m : Nat → UInt8) (size : Nat) : Nat → UInt8 := fun k =>
  if k < size then 0 else m k

/-- The loop over the bits of one value in `llama_kvarn_pack_bits`. -/
def packValue (bits : Nat) (dst : Nat → UInt8) (i : Nat) (value : UInt8) : Nat → UInt8 :=
  (List.range bits).foldl (fun dst bit =>
    let dstBit := i * bits + bit
    orAt dst (dstBit / 8) (((value >>> UInt8.ofNat bit) &&& 1) <<< UInt8.ofNat (dstBit % 8))) dst

/-- `llama_kvarn_pack_bits`; the bit offsets of an `int` index do not overflow a `size_t`. -/
def packBits (values : List UInt8) (bits : Nat) (dst : Nat → UInt8) : Option (Nat → UInt8) :=
  let mask := UInt8.ofNat ((1 <<< bits) - 1)
  (kvarnPackedBytes values.length bits).map fun size =>
    values.zipIdx.foldl (fun dst e => packValue bits dst e.2 (e.1 &&& mask)) (clearBytes dst size)

/-- `llama_kvarn_unpack_bits_value` -/
def unpackBitsValue (src : Nat → UInt8) (index bits : Nat) : UInt8 :=
  (List.range bits).foldl (fun value bit =>
    let srcBit := index * bits + bit
    value ||| (((src (srcBit / 8) >>> UInt8.ofNat (srcBit % 8)) &&& 1) <<< UInt8.ofNat bit)) 0

/-- `llama_kvarn_align_up` -/
def kvarnAlignUp (value alignment : Nat) : Nat :=
  addSize value (alignment - 1) / alignment * alignment

/-- `llama_kvarn_tile_layout` -/
structure KvarnTileLayout where
  kPayloadOff : Nat
  vPayloadOff : Nat
  kSColOff : Nat
  kZpOff : Nat
  kSRowOff : Nat
  vSColOff : Nat
  vSRowOff : Nat
  vZpOff : Nat
  kPayloadBytes : Nat
  vPayloadBytes : Nat
  tileBytes : Nat

/-- The bytes of a vector of `fp16`. -/
def fp16Bytes (n : Int) : Nat := toSize n * 2 % 2 ^ 64

/-- `llama_kvarn_make_layout` -/
def kvarnMakeLayout (headDim group : Int) (keyBits valueBits : Nat) : Option KvarnTileLayout := do
  guard (0 < headDim ∧ 0 < group ∧ kvarnValidBits keyBits ∧ kvarnValidBits valueBits)
  let kPayloadOff := 0
  let kPayloadBytes ← kvarnPackedBytes (← mulInt headDim group) keyBits
  let kSColOff := addSize kPayloadOff kPayloadBytes
  let kZpOff := addSize kSColOff (fp16Bytes headDim)
  let kSRowOff := addSize kZpOff (fp16Bytes headDim)
  let vPayloadOff := addSize kSRowOff (fp16Bytes group)
  let vPayloadBytes ← kvarnPackedBytes (← mulInt group headDim) valueBits
  let vSColOff := addSize vPayloadOff vPayloadBytes
  let vSRowOff := addSize vSColOff (fp16Bytes headDim)
  let vZpOff := addSize vSRowOff (fp16Bytes group)
  let off := addSize vZpOff (fp16Bytes group)
  some
    { kPayloadOff, vPayloadOff, kSColOff, kZpOff, kSRowOff, vSColOff, vSRowOff, vZpOff,
      kPayloadBytes, vPayloadBytes, tileBytes := kvarnAlignUp off 8 }

/-! ## Packing -/

section Packing

variable {bits : Nat} {dst : Nat → UInt8}

theorem testBit_shiftRight_zero (x : UInt8) {s : Nat} (hs : s < 8) :
    (x >>> UInt8.ofNat s).toNat.testBit 0 = x.toNat.testBit s := by
  have hShift : (UInt8.ofNat s).toNat % 8 = s := by
    rw [UInt8.toNat_ofNat']
    omega
  rw [UInt8.toNat_shiftRight, hShift, Nat.testBit_shiftRight, Nat.add_zero]

theorem bitAt_packBitsUpTo (offset : Nat) (value : UInt8) (j : Nat) {count : Nat}
    (hCount : count ≤ 8) :
    bitAt ((range count).foldl (fun dst bit =>
      orAt dst ((offset + bit) / 8)
        (((value >>> UInt8.ofNat bit) &&& 1) <<< UInt8.ofNat ((offset + bit) % 8))) dst) j =
      (bitAt dst j ||
        (decide (offset ≤ j ∧ j < offset + count) && value.toNat.testBit (j - offset))) := by
  induction count with
  | zero =>
    simp
  | succ count ih =>
    rw [range_succ, foldl_append, foldl_cons, foldl_nil, bitAt_orAt,
      ih (by omega), testBit_shiftRight_zero value (by omega), Bool.or_assoc]
    by_cases hj : j = offset + count
    · subst hj
      simp
    have hIff : (offset ≤ j ∧ j < offset + (count + 1)) ↔ (offset ≤ j ∧ j < offset + count) := by
      omega
    simp [hj, hIff]

/-- A value is put at its place, and nothing else changes. -/
theorem bitAt_packValue (hBits : bits ≤ 8) (i : Nat) (value : UInt8) (j : Nat) :
    bitAt (packValue bits dst i value) j =
      (bitAt dst j || (decide (i * bits ≤ j ∧ j < i * bits + bits) &&
        value.toNat.testBit (j - i * bits))) :=
  bitAt_packBitsUpTo (i * bits) value j hBits

/-- The loop over the values from an index on. -/
def packFrom (bits : Nat) (dst : Nat → UInt8) (start : Nat) (values : List UInt8) : Nat → UInt8 :=
  (values.zipIdx start).foldl (fun dst e => packValue bits dst e.2
    (e.1 &&& UInt8.ofNat ((1 <<< bits) - 1))) dst

theorem packFrom_cons (start : Nat) (v : UInt8) (values : List UInt8) :
    packFrom bits dst start (v :: values) =
      packFrom bits (packValue bits dst start (v &&& UInt8.ofNat ((1 <<< bits) - 1)))
        (start + 1) values := rfl

theorem bitAt_packFrom_of_lt (hBits : bits ≤ 8) {values : List UInt8} {start j : Nat}
    (hj : j < start * bits) : bitAt (packFrom bits dst start values) j = bitAt dst j := by
  induction values generalizing start dst with
  | nil => rfl
  | cons v values ih =>
    have hNext : j < (start + 1) * bits := by
      rw [Nat.succ_mul]
      omega
    have hOutside : ¬ (start * bits ≤ j ∧ j < start * bits + bits) := by omega
    rw [packFrom_cons, ih hNext, bitAt_packValue hBits]
    simp [hOutside]

/-- The bits of each value are at its place. -/
theorem bitAt_packFrom (hBits : bits ≤ 8) {values : List UInt8} {start i b : Nat} {v : UInt8}
    (hAt : values[i]? = some v) (hb : b < bits) :
    bitAt (packFrom bits dst start values) ((start + i) * bits + b) =
      (bitAt dst ((start + i) * bits + b) ||
        (v &&& UInt8.ofNat ((1 <<< bits) - 1)).toNat.testBit b) := by
  induction values generalizing start dst i with
  | nil => exact absurd hAt (by simp)
  | cons w values ih =>
    rw [packFrom_cons]
    cases i with
    | zero =>
      obtain rfl : w = v := Option.some.inj hAt
      have hBelow : (start + 0) * bits + b < (start + 1) * bits := by
        rw [Nat.succ_mul, Nat.add_zero]
        omega
      have hInside : start * bits ≤ start * bits + b ∧ start * bits + b < start * bits + bits := by
        omega
      rw [bitAt_packFrom_of_lt hBits hBelow, bitAt_packValue hBits, Nat.add_zero]
      simp [hInside]
    | succ i =>
      have hPlace : start + (i + 1) = start + 1 + i := by omega
      have hBeyond : ¬ (start * bits ≤ (start + 1 + i) * bits + b ∧
          (start + 1 + i) * bits + b < start * bits + bits) := by
        rw [Nat.add_mul, Nat.succ_mul]
        omega
      rw [hPlace, ih hAt, bitAt_packValue hBits]
      simp [hBeyond]

theorem orAt_packValue_of_ge {i k : Nat} {value : UInt8} (hk : i * bits + bits ≤ 8 * k) :
    packValue bits dst i value k = dst k := by
  have hUpTo : ∀ count ≤ bits, ((range count).foldl (fun dst bit =>
      orAt dst ((i * bits + bit) / 8)
        (((value >>> UInt8.ofNat bit) &&& 1) <<< UInt8.ofNat ((i * bits + bit) % 8))) dst) k =
      dst k := by
    intro count hCount
    induction count with
    | zero => rfl
    | succ count ih =>
      rw [range_succ, foldl_append, foldl_cons, foldl_nil,
        orAt_of_ne _ (by omega), ih (by omega)]
  exact hUpTo bits le_rfl

theorem packFrom_of_ge {values : List UInt8} {start k : Nat}
    (hk : (start + values.length) * bits ≤ 8 * k) : packFrom bits dst start values k = dst k := by
  induction values generalizing start dst with
  | nil => rfl
  | cons v values ih =>
    have hRest : (start + 1 + values.length) * bits ≤ 8 * k := by
      rw [Nat.add_right_comm]
      exact hk
    have hFirst : start * bits + bits ≤ 8 * k := by
      rw [← Nat.succ_mul]
      exact le_trans (Nat.mul_le_mul_right bits (by omega)) hRest
    rw [packFrom_cons, ih hRest, orAt_packValue_of_ge hFirst]

theorem kvarnValidBits_bounds (h : kvarnValidBits bits = true) : 2 ≤ bits ∧ bits ≤ 8 := by
  unfold kvarnValidBits at h
  simp only [Bool.or_eq_true, beq_iff_eq] at h
  omega

theorem packedBytes_eq {n : Nat} (hn : n < 2 ^ 31) (hBits : kvarnValidBits bits = true) :
    kvarnPackedBytes n bits = some ((n * bits + 7) / 8) := by
  have hMul : n * bits ≤ 2 ^ 31 * 8 :=
    Nat.mul_le_mul (Nat.le_of_lt hn) (kvarnValidBits_bounds hBits).2
  have hSize : toSize n = n := by
    unfold toSize
    omega
  unfold kvarnPackedBytes addSize
  rw [hSize, Nat.mod_eq_of_lt (by omega), if_pos ⟨Int.natCast_nonneg n, hBits⟩]

section

variable (hBits : kvarnValidBits bits = true) {values : List UInt8}
  (hLength : values.length < 2 ^ 31) {packed : Nat → UInt8}
  (h : packBits values bits dst = some packed)

include hBits hLength

theorem packBits_eq : packBits values bits dst =
    some (packFrom bits (clearBytes dst ((values.length * bits + 7) / 8)) 0 values) := by
  rw [packBits, packedBytes_eq hLength hBits, Option.map_some]
  rfl

include h

theorem packBits_frame {k : Nat} (hk : (values.length * bits + 7) / 8 ≤ k) : packed k = dst k := by
  have hOutside : (0 + values.length) * bits ≤ 8 * k := by
    rw [Nat.zero_add]
    omega
  rw [← Option.some.inj ((packBits_eq hBits hLength).symm.trans h), packFrom_of_ge hOutside,
    clearBytes, if_neg (by omega)]

end

theorem testBit_unpackUpTo (src : Nat → UInt8) (offset b : Nat) {count : Nat}
    (hCount : count ≤ 8) (hb : b < 8) :
    ((range count).foldl (fun value bit =>
      value ||| (((src ((offset + bit) / 8) >>> UInt8.ofNat ((offset + bit) % 8)) &&& 1) <<<
        UInt8.ofNat bit)) 0).toNat.testBit b = (decide (b < count) && bitAt src (offset + b)) := by
  induction count with
  | zero => simp
  | succ count ih =>
    rw [range_succ, foldl_append, foldl_cons, foldl_nil, UInt8.toNat_or,
      Nat.testBit_or, ih (by omega), testBit_one_shiftLeft _ (by omega) hb]
    by_cases hEq : b = count
    · subst hEq
      simp [bitAt]
    · have hIff : b < count + 1 ↔ b < count := by omega
      simp [hEq, hIff]

/-- A value that was packed is read back, reduced to its width. -/
theorem unpack_packBits (hValid : kvarnValidBits bits = true) {values : List UInt8}
    (hLength : values.length < 2 ^ 31) {packed : Nat → UInt8}
    (h : packBits values bits dst = some packed) {i : Nat} {v : UInt8}
    (hAt : values[i]? = some v) :
    (unpackBitsValue packed i bits).toNat = v.toNat % 2 ^ bits := by
  have hBits := (kvarnValidBits_bounds hValid).2
  have hMask : (v &&& UInt8.ofNat ((1 <<< bits) - 1)).toNat = v.toNat % 2 ^ bits := by
    have hPow : 2 ^ bits ≤ 2 ^ 8 := Nat.pow_le_pow_right (by decide) hBits
    rw [UInt8.toNat_and, UInt8.toNat_ofNat', Nat.one_shiftLeft, Nat.mod_eq_of_lt (by omega),
      Nat.and_two_pow_sub_one_eq_mod]
  have hIndex : i < values.length := (List.getElem?_eq_some_iff.mp hAt).1
  apply Nat.eq_of_testBit_eq
  intro b
  by_cases hb : b < bits
  · have hCleared : bitAt (clearBytes dst ((values.length * bits + 7) / 8))
        (i * bits + b) = false := by
      have hBelow : i * bits + bits ≤ values.length * bits := by
        rw [← Nat.succ_mul]
        exact Nat.mul_le_mul_right bits hIndex
      rw [bitAt, clearBytes, if_pos (by omega)]
      exact Nat.zero_testBit _
    have hPacked := @bitAt_packFrom bits
      (clearBytes dst ((values.length * bits + 7) / 8)) hBits values 0 i b v hAt hb
    rw [Nat.zero_add, hCleared, hMask,
      Option.some.inj ((packBits_eq hValid hLength).symm.trans h)] at hPacked
    have hRead := testBit_unpackUpTo packed (i * bits) b hBits (by omega)
    rw [decide_eq_true hb] at hRead
    exact hRead.trans hPacked
  rw [Nat.testBit_mod_two_pow, decide_eq_false hb]
  by_cases hByte : b < 8
  · have hRead := testBit_unpackUpTo packed (i * bits) b hBits hByte
    rw [decide_eq_false hb, Bool.false_and] at hRead
    exact hRead
  · apply Nat.testBit_lt_two_pow
    exact lt_of_lt_of_le (UInt8.toNat_lt _) (Nat.pow_le_pow_right (by decide) (by omega))

end Packing

/-! ## The layout -/

section Layout

variable {headDim group : Int} {keyBits valueBits : Nat}

/-- A region of a record: where it starts, and its bytes. -/
structure TileRegion where
  off : Nat
  bytes : Nat

/-- The bytes of a region. -/
def TileRegion.Covers (r : TileRegion) (k : Nat) : Prop := r.off ≤ k ∧ k < r.off + r.bytes

/-- The regions of a record, in the order of their offsets. -/
def KvarnTileLayout.regions (layout : KvarnTileLayout) (headDim group : Int) : List TileRegion :=
  [⟨layout.kPayloadOff, layout.kPayloadBytes⟩, ⟨layout.kSColOff, 2 * headDim.toNat⟩,
    ⟨layout.kZpOff, 2 * headDim.toNat⟩, ⟨layout.kSRowOff, 2 * group.toNat⟩,
    ⟨layout.vPayloadOff, layout.vPayloadBytes⟩, ⟨layout.vSColOff, 2 * headDim.toNat⟩,
    ⟨layout.vSRowOff, 2 * group.toNat⟩, ⟨layout.vZpOff, 2 * group.toNat⟩]

theorem addSize_eq {a b : Nat} (h : a + b < 2 ^ 64) : addSize a b = a + b := Nat.mod_eq_of_lt h

theorem fp16Bytes_eq {n : Int} (hPos : 0 < n) (hInt : n < 2 ^ 31) : fp16Bytes n = 2 * n.toNat := by
  unfold fp16Bytes toSize
  omega

section

variable (hHead : 0 < headDim ∧ headDim < 2 ^ 31) (hGroup : 0 < group ∧ group < 2 ^ 31)
  (hProduct : headDim * group < 2 ^ 31) (hKey : kvarnValidBits keyBits = true)
  (hValue : kvarnValidBits valueBits = true)

include hHead hGroup hProduct hKey hValue

/-- The payloads have the bits of all values, and the offsets are the sums of the sizes before
them: no sum overflows. -/
theorem kvarnMakeLayout_eq :
    let k := ((headDim * group).toNat * keyBits + 7) / 8
    let v := ((headDim * group).toNat * valueBits + 7) / 8
    let d := 2 * headDim.toNat
    let g := 2 * group.toNat
    kvarnMakeLayout headDim group keyBits valueBits = some
      { kPayloadOff := 0, kPayloadBytes := k, kSColOff := k, kZpOff := k + d, kSRowOff := k + d + d,
        vPayloadOff := k + d + d + g, vPayloadBytes := v, vSColOff := k + d + d + g + v,
        vSRowOff := k + d + d + g + v + d, vZpOff := k + d + d + g + v + d + g,
        tileBytes := (k + d + d + g + v + d + g + g + 7) / 8 * 8 } := by
  intro k v d g
  have hPos : 0 < headDim * group := Int.mul_pos hHead.1 hGroup.1
  have hCount : (headDim * group).toNat < 2 ^ 31 := by omega
  have hBytes : ∀ {bits}, kvarnValidBits bits = true →
      ((headDim * group).toNat * bits + 7) / 8 < 2 ^ 61 := by
    intro bits hBits
    have hMul := Nat.mul_le_mul (Nat.le_of_lt hCount) (kvarnValidBits_bounds hBits).2
    omega
  have hk : k < 2 ^ 61 := hBytes hKey
  have hv : v < 2 ^ 61 := hBytes hValue
  have hd : d < 2 ^ 32 := by omega
  have hg : g < 2 ^ 32 := by omega
  have hSums : addSize 0 k = k ∧ addSize k d = k + d ∧ addSize (k + d) d = k + d + d ∧
      addSize (k + d + d) g = k + d + d + g ∧
      addSize (k + d + d + g) v = k + d + d + g + v ∧
      addSize (k + d + d + g + v) d = k + d + d + g + v + d ∧
      addSize (k + d + d + g + v + d) g = k + d + d + g + v + d + g ∧
      addSize (k + d + d + g + v + d + g) g = k + d + d + g + v + d + g + g ∧
      addSize (k + d + d + g + v + d + g + g) 7 = k + d + d + g + v + d + g + g + 7 := by
    refine ⟨?_, ?_, ?_, ?_, ?_, ?_, ?_, ?_, ?_⟩ <;> rw [addSize_eq (by omega)]
    exact Nat.zero_add k
  obtain ⟨h₁, h₂, h₃, h₄, h₅, h₆, h₇, h₈, h₉⟩ := hSums
  have hMul : mulInt headDim group = some ((headDim * group).toNat : Int) := by
    rw [mulInt, if_pos ⟨by omega, hProduct⟩, Int.toNat_of_nonneg (Int.le_of_lt hPos)]
  have hMul' : mulInt group headDim = some ((headDim * group).toNat : Int) := by
    rw [mulInt, Int.mul_comm, ← mulInt, hMul]
  unfold kvarnMakeLayout kvarnAlignUp
  rw [hMul, hMul', fp16Bytes_eq hHead.1 hHead.2, fp16Bytes_eq hGroup.1 hGroup.2]
  simp only [Option.bind_eq_bind, Option.bind_some, packedBytes_eq hCount hKey,
    packedBytes_eq hCount hValue, show 2 * headDim.toNat = d from rfl,
    show 2 * group.toNat = g from rfl,
    show ((headDim * group).toNat * keyBits + 7) / 8 = k from rfl,
    show ((headDim * group).toNat * valueBits + 7) / 8 = v from rfl,
    show 8 - 1 = 7 from rfl, h₁, h₂, h₃, h₄, h₅, h₆, h₇, h₈, h₉]
  rw [guard, if_pos ⟨hHead.1, hGroup.1, hKey, hValue⟩]
  rfl

variable {layout : KvarnTileLayout}
  (h : kvarnMakeLayout headDim group keyBits valueBits = some layout)

include h

theorem layout_apart :
    (layout.regions headDim group).Pairwise fun r r' => ∀ k, ¬ (r.Covers k ∧ r'.Covers k) := by
  have hApart : ∀ {r r' : TileRegion}, r.off + r.bytes ≤ r'.off →
      ∀ k, ¬ (r.Covers k ∧ r'.Covers k) := by
    rintro r r' hLe k ⟨⟨-, hEnd⟩, ⟨hStart, -⟩⟩
    omega
  have hOrdered : (layout.regions headDim group).Pairwise fun r r' => r.off + r.bytes ≤ r'.off := by
    rw [← Option.some.inj ((kvarnMakeLayout_eq hHead hGroup hProduct hKey hValue).symm.trans h)]
    unfold KvarnTileLayout.regions
    simp only [pairwise_cons, mem_cons, not_mem_nil, forall_eq_or_imp,
      false_imp_iff, implies_true, List.Pairwise.nil, and_true]
    omega
  exact hOrdered.imp hApart

theorem layout_inside : ∀ r ∈ layout.regions headDim group, r.off + r.bytes ≤ layout.tileBytes := by
  rw [← Option.some.inj ((kvarnMakeLayout_eq hHead hGroup hProduct hKey hValue).symm.trans h)]
  unfold KvarnTileLayout.regions
  simp only [mem_cons, not_mem_nil, or_false, forall_eq_or_imp, forall_eq]
  omega

end

end Layout

/-- Every packed value is read back, packing touches the packed bytes only, and the regions of a
record whose values an `int` counts are apart and inside the record. -/
theorem kvarnTile_roundTrip {bits keyBits valueBits : Nat} (hBits : kvarnValidBits bits = true)
    (hKey : kvarnValidBits keyBits = true) (hValue : kvarnValidBits valueBits = true)
    {values : List UInt8} (hLength : values.length < 2 ^ 31) (dst : Nat → UInt8)
    {headDim group : Int} (hHead : 0 < headDim ∧ headDim < 2 ^ 31)
    (hGroup : 0 < group ∧ group < 2 ^ 31) (hProduct : headDim * group < 2 ^ 31) :
    (∃ packed size, packBits values bits dst = some packed ∧
      kvarnPackedBytes values.length bits = some size ∧
      (∀ i v, values[i]? = some v →
        (unpackBitsValue packed i bits).toNat = v.toNat % 2 ^ bits) ∧
      ∀ k, size ≤ k → packed k = dst k) ∧
    ∃ layout, kvarnMakeLayout headDim group keyBits valueBits = some layout ∧
      (layout.regions headDim group).Pairwise (fun r r' => ∀ k, ¬ (r.Covers k ∧ r'.Covers k)) ∧
      (∀ r ∈ layout.regions headDim group, r.off + r.bytes ≤ layout.tileBytes) ∧
      layout.kPayloadBytes = ((headDim * group).toNat * keyBits + 7) / 8 ∧
      layout.vPayloadBytes = ((headDim * group).toNat * valueBits + 7) / 8 := by
  have hPack : packBits values bits dst = some _ := packBits_eq hBits hLength
  have hLayout := kvarnMakeLayout_eq hHead hGroup hProduct hKey hValue
  exact ⟨⟨_, _, hPack, packedBytes_eq hLength hBits,
      fun i v hAt => unpack_packBits hBits hLength hPack hAt,
      fun k hk => packBits_frame hBits hLength hPack hk⟩,
    _, hLayout, layout_apart hHead hGroup hProduct hKey hValue hLayout,
    layout_inside hHead hGroup hProduct hKey hValue hLayout, rfl, rfl⟩

/-- Three values of three bits, and the tiles of 128 by 128 values. -/
theorem threeValues_roundTrip :
    (∃ packed, packBits [5, 9, 7] 3 (fun _ => 255) = some packed ∧
      (unpackBitsValue packed 1 3).toNat = 1 ∧ packed 2 = 255) ∧
    ∃ layout, kvarnMakeLayout 128 128 4 3 = some layout ∧ layout.vPayloadBytes = 6144 := by
  obtain ⟨⟨packed, size, hPack, hSize, hRead, hFrame⟩, layout, hLayout, -, -, -, hPayload⟩ :=
    @kvarnTile_roundTrip 3 4 3 rfl rfl rfl [5, 9, 7] (by decide) (fun _ => 255) 128 128
      (by decide) (by decide) (by decide)
  obtain rfl : 2 = size := Option.some.inj hSize
  exact ⟨⟨packed, hPack, hRead 1 9 rfl, hFrame 2 le_rfl⟩, layout, hLayout, hPayload⟩

/-- The product of two dimensions of 65536 is no `int`. -/
theorem wideTile_none : kvarnMakeLayout 65536 65536 2 2 = none := by decide

end Beellama.Ports
