import LolToolchain.Cbor.Decode
import LolToolchain.Proofs.Numbar.Exact

/-!
Items are read back as they were written: first the numbers in heads, then floats in each of their
widths, then whole items, with as much fuel as the reader is given.
-/
namespace LolToolchain

namespace Cbor

theorem length_bigEndian (k n : Nat) : (bigEndian k n).length = k := by
  induction k with
  | zero => rfl
  | succ k ih => rw [bigEndian, List.length_cons, ih]

private theorem foldl_bigEndian (k n acc : Nat) :
    (bigEndian k n).foldl (fun m b => m * 0x100 + b.toNat) acc = acc * 0x100 ^ k + n % 0x100 ^ k := by
  induction k generalizing acc with
  | zero => simp [bigEndian, Nat.mod_one]
  | succ k ih =>
    have hbyte : (n / 0x100 ^ k).toUInt8.toNat = n / 0x100 ^ k % 0x100 := UInt8.toNat_ofNat'
    rw [bigEndian, List.foldl_cons, ih]
    change (acc * 0x100 + (n / 0x100 ^ k).toUInt8.toNat) * 0x100 ^ k + n % 0x100 ^ k = _
    rw [hbyte, Nat.mod_pow_succ, Nat.add_mul, Nat.pow_succ, Nat.mul_assoc acc, Nat.mul_comm 0x100,
      Nat.mul_comm (0x100 ^ k) (n / 0x100 ^ k % 0x100)]
    omega

/-- The bytes of a number that fits in them spell the number. -/
theorem ofBigEndian_bigEndian {k n : Nat} (h : n < 0x100 ^ k) : ofBigEndian (bigEndian k n) = n := by
  rw [ofBigEndian, foldl_bigEndian, Nat.zero_mul, Nat.zero_add, Nat.mod_eq_of_lt h]

theorem split?_append (a rest : Text) : split? a.length (a ++ rest) = some (a, rest) := by
  rw [split?, List.take_left, if_pos rfl, List.drop_left]

private theorem split?_bigEndian (k n : Nat) (rest : Text) :
    split? k (bigEndian k n ++ rest) = some (bigEndian k n, rest) := by
  have h := split?_append (bigEndian k n) rest
  rwa [length_bigEndian] at h

/-- The low bits of the first byte of a head. -/
def lowBits (n : Nat) : Nat :=
  if n < 24 then n
  else if n < 0x100 then 24
  else if n < 0x10000 then 25
  else if n < 0x100000000 then 26
  else 27

theorem lowBits_lt (n : Nat) : lowBits n < 28 := by
  rw [lowBits]
  repeat' split
  all_goals omega

theorem toNat_first {major low : Nat} (hmajor : major < 8) (hlow : low < 32) :
    (major * 0x20 + low).toUInt8.toNat = major * 0x20 + low :=
  UInt8.toNat_ofNat_of_lt' (by rw [UInt8.size]; omega)

/-- A head whose number stands behind its first byte. -/
theorem readHead?_follow (major low k : Nat) {n : Nat} (hmajor : major < 8) (hn : n < 0x100 ^ k)
    (hlow : low = 24 ∧ k = 1 ∨ low = 25 ∧ k = 2 ∨ low = 26 ∧ k = 4 ∨ low = 27 ∧ k = 8)
    (rest : Text) :
    readHead? ((major * 0x20 + low).toUInt8 :: bigEndian k n ++ rest) =
      some (⟨major, low, n⟩, rest) := by
  have hmod : (major * 0x20 + low) % 0x20 = low := by omega
  have hdiv : (major * 0x20 + low) / 0x20 = major := by omega
  have hread : (split? k (bigEndian k n ++ rest)).map (fun p =>
      ((⟨major, low, ofBigEndian p.1⟩, p.2) : Head × Text)) = some (⟨major, low, n⟩, rest) := by
    rw [split?_bigEndian, Option.map_some, ofBigEndian_bigEndian hn]
  dsimp only [List.cons_append, readHead?]
  rw [toNat_first hmajor (by omega), hmod, hdiv, if_neg (by omega)]
  rcases hlow with ⟨rfl, rfl⟩ | ⟨rfl, rfl⟩ | ⟨rfl, rfl⟩ | ⟨rfl, rfl⟩ <;> exact hread

/-- A head that is written is read as its major type and its number. -/
theorem readHead?_head {major n : Nat} (hmajor : major < 8) (hn : n < 2 ^ 64) (rest : Text) :
    readHead? (head major n ++ rest) = some (⟨major, lowBits n, n⟩, rest) := by
  dsimp only [head, lowBits]
  split
  · have hmod : (major * 0x20 + n) % 0x20 = n := by omega
    have hdiv : (major * 0x20 + n) / 0x20 = major := by omega
    dsimp only [List.cons_append, List.nil_append, readHead?]
    rw [toNat_first hmajor (by omega), hmod, hdiv, if_pos (by assumption)]
  · split
    · exact readHead?_follow major _ _ hmajor (by omega) (by omega) rest
    · split
      · exact readHead?_follow major _ _ hmajor (by omega) (by omega) rest
      · split
        · exact readHead?_follow major _ _ hmajor (by omega) (by omega) rest
        · exact readHead?_follow major _ _ hmajor (by omega) (by omega) rest

theorem one_le_length_head (major n : Nat) : 1 ≤ (head major n).length := by
  dsimp only [head]
  repeat' split
  all_goals simp

end Cbor

namespace Numbar

/-- The number, with one NaN in the place of all. -/
def quiet (x : Numbar) : Numbar :=
  if x.isNaN then ⟨0x7FF8000000000000⟩ else x

theorem quiet_quiet (x : Numbar) : x.quiet.quiet = x.quiet := by
  by_cases h : x.isNaN = true
  · rw [quiet, quiet, if_pos h]
    rfl
  · have hx : x.quiet = x := if_neg h
    rw [hx, hx]

theorem encodeFloat_quiet (x : Numbar) : Cbor.encodeFloat x.quiet = Cbor.encodeFloat x := by
  by_cases h : x.isNaN = true
  · rw [quiet, if_pos h, Cbor.encodeFloat, Cbor.encodeFloat, if_pos h]
    rfl
  · rw [quiet, if_neg h]

/-- A number is kept when its unit is changed and what is left over is a whole number. -/
private theorem sameScaled_of_dvd {m : Nat} {e u : Int} (h : m * scaleUp (e - u) % scaleDown (e - u) = 0) :
    SameScaled (m * scaleUp (e - u) / scaleDown (e - u)) u m e := by
  generalize hq : m * scaleUp (e - u) / scaleDown (e - u) = q
  have hmul : q * 2 ^ (-(e - u)).toNat = m * 2 ^ (e - u).toNat := by
    rw [← hq]
    exact Nat.div_mul_cancel (Nat.dvd_of_mod_eq_zero h)
  change q * 2 ^ u.toNat * 2 ^ (-e).toNat = m * 2 ^ e.toNat * 2 ^ (-u).toNat
  rw [Nat.mul_assoc, Nat.mul_assoc, ← Nat.pow_add, ← Nat.pow_add]
  by_cases hle : u ≤ e
  · rw [show (-(e - u)).toNat = 0 by omega, Nat.pow_zero, Nat.mul_one] at hmul
    rw [hmul, Nat.mul_assoc, ← Nat.pow_add]
    congr 2
    omega
  · rw [show (e - u).toNat = 0 by omega, Nat.pow_zero, Nat.mul_one] at hmul
    rw [← hmul, Nat.mul_assoc, ← Nat.pow_add]
    congr 2
    omega

end Numbar

namespace FloatWidth

variable {w : FloatWidth}

/-- A pattern below infinity with a sign is widened as a scaled number. -/
theorem widen_signed (negative : Bool) {p : Nat} (hp : p < w.infinity) :
    w.widen ((if negative then w.sign else 0) + p) =
      if p < w.step then .ofScaled negative (p % w.step) w.least
      else .ofScaled negative (p % w.step + w.step) (w.least + (p / w.step : Nat) - 1) := by
  have hsign : w.sign = w.infinity + w.step := rfl
  have hlt : p < w.sign := by omega
  have hmod : ((if negative then w.sign else 0) + p) % w.sign = p := by
    cases negative with
    | false => exact (congrArg (· % w.sign) (Nat.zero_add p)).trans (Nat.mod_eq_of_lt hlt)
    | true => exact (Nat.add_mod_left w.sign p).trans (Nat.mod_eq_of_lt hlt)
  have hneg : decide (w.sign ≤ (if negative then w.sign else 0) + p) = negative := by
    cases negative with
    | false => exact decide_eq_false (by simp only [Bool.false_eq_true, if_false]; omega)
    | true => exact decide_eq_true (Nat.le_add_right _ _)
  dsimp only [widen]
  rw [hmod, hneg, if_neg (by omega), if_neg (by omega)]

/-- The pattern of a scaled number: only the least unit goes without the bit above the fraction. -/
private theorem widen_scaled (negative : Bool) {q : Nat} {unit : Int} (hleast : w.least ≤ unit)
    (hq : q < 2 * w.step) (hhidden : w.least < unit → w.step ≤ q)
    (hp : (unit - w.least).toNat * w.step + q < w.infinity) :
    w.widen ((if negative then w.sign else 0) + ((unit - w.least).toNat * w.step + q)) =
      .ofScaled negative q unit := by
  have hpos : 0 < w.step := Nat.two_pow_pos _
  rw [widen_signed negative hp]
  by_cases hlt : q < w.step
  · have hunit : unit = w.least := by omega
    have hzero : (unit - w.least).toNat = 0 := by omega
    rw [hzero, Nat.zero_mul, Nat.zero_add, if_pos hlt, Nat.mod_eq_of_lt hlt, hunit]
  · obtain ⟨r, rfl⟩ : ∃ r, q = w.step + r := ⟨q - w.step, by omega⟩
    have hr : r < w.step := by omega
    have heq : (unit - w.least).toNat * w.step + (w.step + r) =
        r + w.step * ((unit - w.least).toNat + 1) := by
      rw [Nat.mul_add, Nat.mul_one, Nat.mul_comm]
      omega
    have hge : ¬r + w.step * ((unit - w.least).toNat + 1) < w.step := by
      rw [Nat.mul_add]
      omega
    rw [heq, if_neg hge, Nat.add_mul_mod_self_left, Nat.mod_eq_of_lt hr,
      Nat.add_mul_div_left _ _ hpos, Nat.div_eq_of_lt hr, Nat.add_comm r]
    congr 1
    omega

/-- A finite number that a narrower format keeps comes out of it again. -/
private theorem widen_of_narrow? (hinfinity : 0 < w.infinity) {x : Numbar} (hx : x.Finite) {n : Nat}
    (h : w.narrow? x = some n) : w.widen n = x ∧ n < 2 * w.sign := by
  have hpos : 0 < w.step := Nat.two_pow_pos _
  have hsign : w.sign = w.infinity + w.step := rfl
  have hbound {p : Nat} (hp : p < w.infinity) :
      (if x.isNegative then w.sign else 0) + p < 2 * w.sign := by
    split <;> omega
  dsimp only [narrow?] at h
  split at h
  · rename_i hzero
    cases h
    have hmagnitude : x.magnitude = 0 := by
      have heq := x.magnitude_eq
      rw [hzero, Numbar.exponent_of_significand_lt (by rw [hzero]; decide)] at heq
      exact heq.symm
    have hwiden := widen_signed (w := w) x.isNegative hinfinity
    rw [Nat.add_zero, if_pos hpos, Nat.zero_mod, Numbar.ofScaled_zero] at hwiden
    have heq := x.ofMagnitude_magnitude
    rw [hmagnitude] at heq
    exact ⟨hwiden.trans heq, hbound hinfinity⟩
  · rename_i hm
    split at h
    · cases h
    · rename_i hdvd
      have hsame := Numbar.sameScaled_of_dvd (Decidable.not_not.1 hdvd)
      generalize hunit : max w.least ((x.significand.log2 : Int) + x.exponent - w.fraction) = unit
        at hsame h
      generalize x.significand * Numbar.scaleUp (x.exponent - unit) /
        Numbar.scaleDown (x.exponent - unit) = q at hsame h
      split at h
      · cases h
      · rename_i hfit
        cases h
        have hlog := hsame.log2_add hm
        have hne := hsame.ne_zero hm
        have hq : q < 2 * w.step := by
          have hlt : q < 2 ^ (w.fraction + 1) := (Nat.log2_lt hne).1 (by omega)
          rw [Nat.pow_succ, Nat.mul_comm] at hlt
          exact hlt
        have hhidden : w.least < unit → w.step ≤ q := fun hlt =>
          (Nat.le_log2 hne).1 (by omega)
        refine ⟨?_, hbound (by omega)⟩
        rw [widen_scaled _ (by omega) hq hhidden (by omega), Numbar.ofScaled_exact _ hx hm hsame,
          x.ofMagnitude_magnitude]

end FloatWidth

namespace Cbor

theorem read?_primitive {t rest : Text} {low n : Nat} {item : Cbor}
    (h : readHead? t = some (⟨7, low, n⟩, rest)) (hitem : primitive? ⟨7, low, n⟩ = some item)
    (fuel depth : Nat) : read? (fuel + 1) depth t = some (item, rest) := by
  rw [read?, h]
  change (primitive? ⟨7, low, n⟩ >>= fun item => some (item, rest)) = _
  rw [hitem]
  rfl

/-- A float that is written is read as itself, but all NaNs are read as one. -/
theorem read?_encodeFloat (x : Numbar) (rest : Text) (fuel depth : Nat) :
    read? (fuel + 1) depth (encodeFloat x ++ rest) = some (.float x.quiet, rest) := by
  rw [encodeFloat, Numbar.quiet]
  by_cases hnan : x.isNaN = true
  · rw [if_pos hnan, if_pos hnan]
    exact read?_primitive (n := 0x7E00) (readHead?_follow 7 25 2 (by decide) (by decide)
      (by decide) rest) rfl fuel depth
  rw [if_neg hnan, if_neg hnan]
  split
  · rename_i hinf
    have hx : x = .ofMagnitude x.isNegative Numbar.infinityBits := by
      have heq := x.ofMagnitude_magnitude
      rw [beq_iff_eq.1 hinf] at heq
      exact heq.symm
    cases hnegative : x.isNegative with
    | false =>
      rw [hnegative] at hx
      refine read?_primitive (n := 0x7C00) (readHead?_follow 7 25 2 (by decide) (by decide)
        (by decide) rest) ?_ fuel depth
      exact congrArg (fun y => some (Cbor.float y)) hx.symm
    | true =>
      rw [hnegative] at hx
      refine read?_primitive (n := 0xFC00) (readHead?_follow 7 25 2 (by decide) (by decide)
        (by decide) rest) ?_ fuel depth
      exact congrArg (fun y => some (Cbor.float y)) hx.symm
  · rename_i hinf
    have hx : x.Finite := by
      refine Nat.lt_of_le_of_ne (Nat.not_lt.1 fun hlt => hnan (decide_eq_true hlt)) fun heq =>
        hinf ?_
      exact beq_iff_eq.2 heq
    split
    · rename_i n hn
      obtain ⟨hwiden, hlt⟩ := FloatWidth.widen_of_narrow? (by decide) hx hn
      refine read?_primitive (readHead?_follow 7 25 2 (by decide) hlt (by omega) rest) ?_ fuel depth
      exact congrArg (fun y => some (Cbor.float y)) hwiden
    · split
      · rename_i n hn
        obtain ⟨hwiden, hlt⟩ := FloatWidth.widen_of_narrow? (by decide) hx hn
        refine read?_primitive (readHead?_follow 7 26 4 (by decide) hlt (by omega) rest) ?_ fuel
          depth
        exact congrArg (fun y => some (Cbor.float y)) hwiden
      · refine read?_primitive (readHead?_follow 7 27 8 (by decide) x.bits.toNat_lt (by omega)
          rest) ?_ fuel depth
        exact congrArg (fun b => some (Cbor.float ⟨b⟩)) UInt64.ofNat_toNat

theorem one_le_length_encodeFloat (x : Numbar) : 1 ≤ (encodeFloat x).length := by
  rw [encodeFloat]
  repeat' split
  all_goals simp

mutual

/-- Items that can be written and read back below a depth: their numbers fit in 64 bits, their texts
are in one piece, no float is a NaN but the one that is read, and no array or map has too many members. -/
def Plain : Nat → Cbor → Prop
  | _, .nat n | _, .neg n => n < 2 ^ 64
  | _, .bytes b => b.length < 2 ^ 64
  | _, .text pieces => pieces.length = 1 ∧ pieces.flatten.length < 2 ^ 64
  | 0, .array _ | 0, .map _ => False
  | depth + 1, .array xs => xs.length ≤ maxCount ∧ PlainAll depth xs
  | depth + 1, .map es => es.length ≤ maxCount ∧ PlainEntries depth es
  | _, .tag _ _ => False
  | _, .simple n => n < 24
  | _, .float x => x.quiet = x

def PlainAll : Nat → List Cbor → Prop
  | _, [] => True
  | depth, x :: xs => Plain depth x ∧ PlainAll depth xs

def PlainEntries : Nat → List (Cbor × Cbor) → Prop
  | _, [] => True
  | depth, (k, v) :: es => Plain depth k ∧ Plain depth v ∧ PlainEntries depth es

end

/-- The items of a map one after another. -/
def flat : List (Cbor × Cbor) → List Cbor
  | [] => []
  | (k, v) :: es => k :: v :: flat es

theorem pairUp?_flat (es : List (Cbor × Cbor)) : pairUp? (flat es) = some es := by
  induction es with
  | nil => rfl
  | cons e es ih =>
    change (pairUp? (flat es)).map (e :: ·) = some (e :: es)
    rw [ih]
    rfl

theorem length_flat (es : List (Cbor × Cbor)) : (flat es).length = es.length * 2 := by
  induction es with
  | nil => rfl
  | cons e es ih =>
    rw [flat, List.length_cons, List.length_cons, List.length_cons, ih, Nat.succ_mul]

theorem one_le_length_encode (x : Cbor) : 1 ≤ x.encode.length := by
  have happend (major n : Nat) (t : Text) : 1 ≤ (head major n ++ t).length := by
    rw [List.length_append]
    exact Nat.le_trans (one_le_length_head _ _) (Nat.le_add_right _ _)
  cases x with
  | float x => exact one_le_length_encodeFloat x
  | nat n | neg n | simple n => exact one_le_length_head _ _
  | bytes b | text pieces | array xs | map es | tag n x => exact happend _ _ _

theorem isOpen_lowBits (major n m : Nat) : Head.isOpen ⟨major, lowBits n, m⟩ = false :=
  beq_eq_false_iff_ne.2 (Nat.ne_of_lt (Nat.lt_of_lt_of_le (lowBits_lt n) (by decide)))

private theorem readString?_head (major : Nat) (t rest : Text) :
    readString? ⟨major, lowBits t.length, t.length⟩ (t ++ rest) = some ([t], rest) := by
  rw [readString?, isOpen_lowBits, if_neg Bool.false_ne_true, split?_append]
  rfl

/-- The members of an array or map are read when the items that they are made of are. -/
private theorem readMembers?_head {major n width fuel depth : Nat} (hn : n ≤ maxCount) {t : Text}
    {r : List Cbor × Text} (h : readMany? fuel depth (n * width) t = some r) :
    readMembers? (fuel + 1) (depth + 1) ⟨major, lowBits n, n⟩ width t = some r := by
  rw [readMembers?, isOpen_lowBits, if_neg Bool.false_ne_true, if_neg (Nat.not_lt.2 hn), h]

/-- Fuel for an item of some bytes is fuel for what the item is made of. -/
private theorem exists_fuel {n fuel : Nat} (hn : 1 ≤ n) (h : 3 * n ≤ fuel) :
    ∃ rest, fuel = rest + 2 ∧ 3 * (n - 1) + 1 ≤ rest :=
  ⟨fuel - 2, by omega, by omega⟩

mutual

/-- An item that is written is read as itself, with three units of fuel for each byte. -/
theorem read?_encode : ∀ (x : Cbor) {depth fuel : Nat} (rest : Text), x.Plain depth →
    3 * x.encode.length ≤ fuel → read? fuel depth (x.encode ++ rest) = some (x, rest)
  | .nat n, depth, fuel, rest, h, hfuel => by
    have hn : n < 2 ^ 64 := by cases depth <;> exact h
    obtain ⟨fuel, rfl, -⟩ := exists_fuel (one_le_length_encode _) hfuel
    rw [encode, read?, readHead?_head (by decide) hn]
    change (if Head.isOpen ⟨0, lowBits n, n⟩ then none else some (Cbor.nat n, rest)) = _
    rw [isOpen_lowBits, if_neg Bool.false_ne_true]
  | .neg n, depth, fuel, rest, h, hfuel => by
    have hn : n < 2 ^ 64 := by cases depth <;> exact h
    obtain ⟨fuel, rfl, -⟩ := exists_fuel (one_le_length_encode _) hfuel
    rw [encode, read?, readHead?_head (by decide) hn]
    change (if Head.isOpen ⟨1, lowBits n, n⟩ then none else some (Cbor.neg n, rest)) = _
    rw [isOpen_lowBits, if_neg Bool.false_ne_true]
  | .bytes b, depth, fuel, rest, h, hfuel => by
    have hb : b.length < 2 ^ 64 := by cases depth <;> exact h
    obtain ⟨fuel, rfl, -⟩ := exists_fuel (one_le_length_encode _) hfuel
    rw [encode, List.append_assoc, read?, readHead?_head (by decide) hb]
    change (readString? ⟨2, lowBits b.length, b.length⟩ (b ++ rest) >>= fun r =>
      some (Cbor.bytes r.1.flatten, r.2)) = _
    rw [readString?_head]
    change some (Cbor.bytes [b].flatten, rest) = _
    rw [List.flatten_singleton]
  | .text pieces, depth, fuel, rest, h, hfuel => by
    have ht : pieces.length = 1 ∧ pieces.flatten.length < 2 ^ 64 := by cases depth <;> exact h
    obtain ⟨fuel, rfl, -⟩ := exists_fuel (one_le_length_encode _) hfuel
    obtain ⟨t, rfl⟩ := List.length_eq_one_iff.1 ht.1
    rw [List.flatten_singleton] at ht
    rw [encode, List.flatten_singleton, List.append_assoc, read?, readHead?_head (by decide) ht.2]
    change (readString? ⟨3, lowBits t.length, t.length⟩ (t ++ rest) >>= fun r =>
      some (Cbor.text r.1, r.2)) = _
    rw [readString?_head]
    rfl
  | .array xs, depth + 1, fuel, rest, h, hfuel => by
    obtain ⟨fuel, rfl, hrest⟩ := exists_fuel (one_le_length_encode _) hfuel
    have hhead := one_le_length_head 4 xs.length
    rw [encode, List.length_append] at hrest
    have hmany := readMany?_encode xs rest h.2 (by omega : _ ≤ fuel)
    rw [encode, List.append_assoc, read?,
      readHead?_head (by decide) (Nat.lt_of_le_of_lt h.1 (by decide))]
    change (readMembers? (fuel + 1) (depth + 1) ⟨4, lowBits xs.length, xs.length⟩ 1
      (encodeAll xs ++ rest) >>= fun r => some (Cbor.array r.1, r.2)) = _
    rw [readMembers?_head h.1 (by rw [Nat.mul_one]; exact hmany)]
    rfl
  | .map es, depth + 1, fuel, rest, h, hfuel => by
    obtain ⟨fuel, rfl, hrest⟩ := exists_fuel (one_le_length_encode _) hfuel
    have hhead := one_le_length_head 5 es.length
    rw [encode, List.length_append] at hrest
    have hmany := readMany?_encodeEntries es rest h.2 (by omega : _ ≤ fuel)
    rw [encode, List.append_assoc, read?,
      readHead?_head (by decide) (Nat.lt_of_le_of_lt h.1 (by decide))]
    change (readMembers? (fuel + 1) (depth + 1) ⟨5, lowBits es.length, es.length⟩ 2
      (encodeEntries es ++ rest) >>= fun r => pairUp? r.1 >>= fun es => some (Cbor.map es, r.2)) = _
    rw [readMembers?_head h.1 (by rw [← length_flat]; exact hmany)]
    change (pairUp? (flat es) >>= fun es => some (Cbor.map es, rest)) = _
    rw [pairUp?_flat]
    rfl
  | .array _, 0, _, _, h, _ | .map _, 0, _, _, h, _ => h.elim
  | .tag _ _, depth, _, _, h, _ => by cases depth <;> exact h.elim
  | .simple n, depth, fuel, rest, h, hfuel => by
    have hn : n < 24 := by cases depth <;> exact h
    obtain ⟨fuel, rfl, -⟩ := exists_fuel (one_le_length_encode _) hfuel
    have hlow : lowBits n = n := if_pos hn
    have hprimitive : primitive? ⟨7, n, n⟩ = some (.simple n) := by
      rw [primitive?]
      split
      all_goals first
        | rfl
        | (dsimp only at *; omega)
    have hhead : readHead? (head 7 n ++ rest) = some (⟨7, lowBits n, n⟩, rest) :=
      readHead?_head (by decide) (by omega) rest
    rw [hlow] at hhead
    exact read?_primitive hhead hprimitive _ depth
  | .float x, depth, fuel, rest, h, hfuel => by
    obtain ⟨fuel, rfl, -⟩ := exists_fuel (one_le_length_encode _) hfuel
    have hx : x.quiet = x := by cases depth <;> exact h
    have hread := read?_encodeFloat x rest (fuel + 1) depth
    rwa [hx] at hread

/-- Items that are written one after another are read as themselves. -/
theorem readMany?_encode : ∀ (xs : List Cbor) {depth fuel : Nat} (rest : Text), PlainAll depth xs →
    3 * (encodeAll xs).length + 1 ≤ fuel →
    readMany? fuel depth xs.length (encodeAll xs ++ rest) = some (xs, rest)
  | [], _, fuel + 1, rest, _, _ => rfl
  | x :: xs, depth, fuel + 1, rest, h, hfuel => by
    have hlen := one_le_length_encode x
    rw [encodeAll, List.length_append] at hfuel
    rw [encodeAll, List.length_cons, List.append_assoc, readMany?,
      read?_encode x _ h.1 (by omega)]
    change (readMany? fuel depth xs.length (encodeAll xs ++ rest) >>= fun r =>
      some (x :: r.1, r.2)) = _
    rw [readMany?_encode xs rest h.2 (by omega)]
    rfl

theorem readMany?_encodeEntries : ∀ (es : List (Cbor × Cbor)) {depth fuel : Nat} (rest : Text),
    PlainEntries depth es → 3 * (encodeEntries es).length + 1 ≤ fuel →
    readMany? fuel depth (flat es).length (encodeEntries es ++ rest) = some (flat es, rest)
  | [], _, fuel + 1, rest, _, _ => rfl
  | (k, v) :: es, depth, fuel, rest, h, hfuel => by
    have hk := one_le_length_encode k
    have hv := one_le_length_encode v
    rw [encodeEntries, List.length_append, List.length_append] at hfuel
    obtain ⟨fuel, rfl⟩ : ∃ rest, fuel = rest + 2 := ⟨fuel - 2, by omega⟩
    rw [encodeEntries, flat, List.length_cons, List.length_cons, List.append_assoc,
      List.append_assoc, readMany?, read?_encode k _ h.1 (by omega)]
    change (readMany? (fuel + 1) depth ((flat es).length + 1) (v.encode ++ (encodeEntries es ++ rest))
      >>= fun r => some (k :: r.1, r.2)) = _
    rw [readMany?, read?_encode v _ h.2.1 (by omega)]
    change ((readMany? fuel depth (flat es).length (encodeEntries es ++ rest) >>= fun r =>
      some (v :: r.1, r.2)) >>= fun r => some (k :: r.1, r.2)) = _
    rw [readMany?_encodeEntries es rest h.2.2 (by omega)]
    rfl

end

/-- An item that is written is decoded as itself. -/
theorem decode?_encode {x : Cbor} (h : x.Plain maxDepth) : decode? x.encode = some x := by
  have hread := read?_encode x [] h (by omega : 3 * x.encode.length ≤ 3 * x.encode.length + 3)
  rw [List.append_nil] at hread
  rw [decode?, hread]
  rfl

end Cbor
end LolToolchain
