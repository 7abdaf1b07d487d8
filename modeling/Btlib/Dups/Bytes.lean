import Mathlib.Tactic.NormNum
import Mathlib.Tactic.Positivity
import Mathlib.Tactic.Ring
import Btlib.Source.Dups

namespace Btlib

section Bytes

@[simp] theorem length_leBytes (i : Int) (n : Nat) : (leBytes i n).length = n := by
  induction n generalizing i with
  | zero => rfl
  | succ n ih => simp [leBytes, ih]

theorem emod_mul {i m : Int} (k : Int) (hm : 0 < m) (hk : 0 < k) : i % (k * m) = i % k + k * (i / k % m) := by
  have hsum : i = i % k + k * (i / k % m) + k * m * (i / k / m) := by
    have h1 := Int.emod_add_mul_ediv i k
    have h2 := Int.emod_add_mul_ediv (i / k) m
    calc i = i % k + k * (i / k) := h1.symm
      _ = i % k + k * (i / k % m + m * (i / k / m)) := by rw [h2]
      _ = _ := by ring
  have h0 := Int.emod_nonneg i hk.ne'
  have h1 := Int.emod_lt_of_pos i hk
  have h2 := Int.emod_nonneg (i / k) hm.ne'
  have h3 := Int.emod_lt_of_pos (i / k) hm
  have hmul := Int.mul_le_mul_of_nonneg_left (Int.le_sub_one_of_lt h3) hk.le
  rw [mul_sub, mul_one] at hmul
  have hlt : i % k + k * (i / k % m) < k * m := by omega
  have hnn : 0 ≤ i % k + k * (i / k % m) := add_nonneg h0 (mul_nonneg hk.le h2)
  conv_lhs => rw [hsum]
  rw [Int.add_mul_emod_self_left, Int.emod_eq_of_lt hnn hlt]

theorem leVal_leBytes (i : Int) (n : Nat) : leVal (leBytes i n) = i % 256 ^ n := by
  induction n generalizing i with
  | zero => simp [leBytes, leVal]
  | succ n ih =>
      have hbyte : ((Fin.ofNat 256 (i % 256).toNat : Byte).val : Int) = i % 256 := by
        have h0 := Int.emod_nonneg i (show (256 : Int) ≠ 0 by decide)
        have h1 := Int.emod_lt_of_pos i (show (0 : Int) < 256 by decide)
        simp only [Fin.val_ofNat]
        omega
      rw [leBytes, leVal, hbyte, ih, pow_succ, mul_comm ((256 : Int) ^ n), emod_mul 256 (by positivity) (by decide)]

theorem leBytes_drop_append (i : Int) (n : Nat) (l : List Byte) : (leBytes i n ++ l).drop n = l := by
  rw [List.drop_append_of_le_length (by simp)]
  simp

theorem leBytes_take_append (i : Int) (n : Nat) (l : List Byte) :
    (leBytes i n ++ l).take n = leBytes i n := by
  rw [List.take_append_of_le_length (by simp), List.take_of_length_le (by simp)]

theorem rdsz_wrsz {i : Int} (h0 : 0 ≤ i) (h1 : i < 65536) (l : List Byte) : rdsz (wrsz i ++ l) = i := by
  have hb : ∀ j : Int, 0 ≤ j → (((Fin.ofNat 256 (j % 256).toNat : Byte).val : Nat) : Int) = j % 256 := by
    intro j hj
    simp only [Fin.val_ofNat]
    omega
  simp only [wrsz, leBytes, rdsz, List.cons_append, List.nil_append, List.getD_cons_zero,
    List.getD_cons_succ]
  rw [hb i h0, hb (i / 256) (by omega)]
  omega

end Bytes

section Words

variable [Build]

-- What a `BTint` can hold.
def Fits (i : Int) : Prop := wrap i = i

theorem rdint_wrint {i : Int} (h : Fits i) (l : List Byte) : rdint (wrint i ++ l) = i := by
  have h256 : (256 : Int) ^ ZBPW = ((2 ^ (8 * ZBPW) : Nat) : Int) := by
    rw [pow_mul]
    norm_num
  rw [rdint, wrint, leBytes_take_append, leVal_leBytes, wrap, h256, Int.emod_bmod]
  exact h

theorem fits_of_le (hw : 0 < ZBPW) {i : Int} (h0 : -1 ≤ i) (h1 : i ≤ BTINT_MAX) : Fits i := by
  have hpow : (2 : Int) ^ (8 * ZBPW) = 2 * 2 ^ (8 * ZBPW - 1) := by
    rw [← pow_succ', Nat.sub_add_cancel (by omega)]
  have hpos : (0 : Int) < 2 ^ (8 * ZBPW - 1) := by positivity
  have hmax : i < 2 ^ (8 * ZBPW - 1) := by
    unfold BTINT_MAX at h1
    omega
  have hcast : ((2 ^ (8 * ZBPW) : Nat) : Int) = 2 * 2 ^ (8 * ZBPW - 1) := by
    rw [← hpow]
    norm_num
  unfold Fits wrap
  rw [Int.bmod_eq_of_le]
  · rw [hcast]
    omega
  · rw [hcast]
    omega

end Words

section Entries

variable [Build]

-- An entry that a `struct bt_dkey` can hold: its key is a C string.
structure DKey.Fits (d : DKey) : Prop where
  short : d.key.length ≤ ZKYLEN - 1
  nonzero : ∀ b ∈ d.key, b ≠ 0
  val : Btlib.Fits d.val
  flink : Btlib.Fits d.flink
  blink : Btlib.Fits d.blink

theorem DKey.length_bytes {d : DKey} (h : d.key.length ≤ ZKYLEN - 1) : d.bytes.length = sizeofDKey := by
  have hk : (keycpy d.key).length = d.key.length := by
    rw [keycpy, List.length_take]
    omega
  simp only [DKey.bytes, List.length_append, hk, List.length_replicate, length_leBytes, wrint, sizeofDKey]
  omega

omit [Build] in
theorem takeWhile_pad {k : Key} (h : ∀ b ∈ k, b ≠ 0) {n : Nat} (hn : 0 < n) :
    (k ++ List.replicate n 0).takeWhile (· ≠ 0) = k := by
  rw [List.takeWhile_append_of_pos fun b hb => by simpa using h b hb]
  obtain ⟨m,rfl⟩ := Nat.exists_eq_succ_of_ne_zero hn.ne'
  simp [List.replicate_succ]

theorem DKey.ofBytes_bytes {d : DKey} (h : d.Fits) : DKey.ofBytes d.bytes = d := by
  have hk : keycpy d.key = d.key := List.take_of_length_le h.short
  have hlen : (d.key ++ List.replicate (ZKYLEN - d.key.length) (0 : Byte)).length = ZKYLEN := by
    have := h.short
    simp only [List.length_append, List.length_replicate]
    omega
  have hflag : 4 ≤ flagSz := by
    unfold flagSz
    split <;> decide
  have hbytes : d.bytes = (d.key ++ List.replicate (ZKYLEN - d.key.length) 0) ++
      (leBytes (if d.deleted then 1 else 0) flagSz ++ (wrint d.val ++ (wrint d.flink ++ wrint d.blink))) := by
    simp only [DKey.bytes, hk, List.append_assoc]
  have hdrop : d.bytes.drop ZKYLEN =
      leBytes (if d.deleted then 1 else 0) flagSz ++ (wrint d.val ++ (wrint d.flink ++ wrint d.blink)) := by
    rw [hbytes, List.drop_append_of_le_length hlen.ge, List.drop_of_length_le hlen.le, List.nil_append]
  have hval : d.bytes.drop (ZKYLEN + flagSz) = wrint d.val ++ (wrint d.flink ++ wrint d.blink) := by
    rw [← List.drop_drop, hdrop, leBytes_drop_append]
  have hflink : d.bytes.drop (ZKYLEN + flagSz + ZBPW) = wrint d.flink ++ wrint d.blink := by
    rw [← List.drop_drop, hval]
    exact leBytes_drop_append _ _ _
  have hblink : d.bytes.drop (ZKYLEN + flagSz + 2 * ZBPW) = wrint d.blink := by
    rw [two_mul, ← add_assoc, ← List.drop_drop, hflink]
    exact leBytes_drop_append _ _ _
  have hkey : (d.bytes.take ZKYLEN).takeWhile (· ≠ 0) = d.key := by
    rw [hbytes, List.take_append_of_le_length hlen.ge, List.take_of_length_le hlen.le]
    exact takeWhile_pad h.nonzero (Nat.sub_pos_of_lt (Nat.lt_of_le_of_lt h.short (by decide)))
  have hdel : (leVal ((d.bytes.drop ZKYLEN).take 4) ≠ 0 : Bool) = d.deleted := by
    rw [hdrop, List.take_append_of_le_length (by simpa using hflag)]
    have htake : ∀ i : Int, (leBytes i flagSz).take 4 = leBytes i 4 := by
      intro i
      unfold flagSz
      split <;> rfl
    rw [htake, leVal_leBytes]
    cases d.deleted <;> decide
  obtain ⟨key,deleted,val,flink,blink⟩ := d
  simp only [DKey.ofBytes, DKey.mk.injEq]
  refine ⟨hkey,hdel,?_,?_,?_⟩
  · rw [hval]
    exact rdint_wrint h.val _
  · rw [hflink]
    exact rdint_wrint h.flink _
  · rw [hblink]
    simpa using rdint_wrint h.blink []

end Entries

section Addresses

variable [Build]

theorem ZBLKSZ_pos : 0 < ZBLKSZ := Nat.two_pow_pos _

theorem cnvdraddr_add {b off : Int} (hb : 0 ≤ b) (h0 : 0 ≤ off) (h1 : off < ZBLKSZ) :
    cnvdraddr (b * ZBLKSZ + off) = (b, off) := by
  lift b to Nat using hb
  lift off to Nat using h0
  have hoff : off < ZBLKSZ := by exact_mod_cast h1
  have hsum : (b : Int) * ZBLKSZ + off = ((b * ZBLKSZ + off : Nat) : Int) := by push_cast; rfl
  have hpred : ((ZBLKSZ : Nat) : Int) - 1 = ((ZBLKSZ - 1 : Nat) : Int) := by
    have := ZBLKSZ_pos
    omega
  rw [cnvdraddr, hsum, hpred]
  refine Prod.ext ?_ ?_
  · change ((b * ZBLKSZ + off : Nat) : Int).tdiv (ZBLKSZ : Nat) = b
    rw [← Int.ofNat_tdiv, Nat.add_comm, Nat.add_mul_div_right _ _ ZBLKSZ_pos, Nat.div_eq_of_lt hoff,
      Nat.zero_add]
  · change Int.land ((b * ZBLKSZ + off : Nat) : Int) ((ZBLKSZ - 1 : Nat) : Int) = off
    have hland : Int.land ((b * ZBLKSZ + off : Nat) : Int) ((ZBLKSZ - 1 : Nat) : Int) =
        (((b * ZBLKSZ + off) &&& (ZBLKSZ - 1) : Nat) : Int) := rfl
    rw [hland, ZBLKSZ, Nat.and_two_pow_sub_one_eq_mod, Nat.add_comm, Nat.add_mul_mod_self_right]
    exact congrArg _ (Nat.mod_eq_of_lt hoff)

theorem mkdraddr_eq {b off : Int} (hb : 0 ≤ b) (hfits : Fits (b * ZBLKSZ)) (h0 : 0 ≤ off)
    (h1 : off < ZBLKSZ) : mkdraddr b off = b * ZBLKSZ + off := by
  rw [mkdraddr, show wrap (b * ZBLKSZ) = b * ZBLKSZ from hfits]
  lift b to Nat using hb
  lift off to Nat using h0
  have hoff : off < ZBLKSZ := by exact_mod_cast h1
  have hlor : Int.lor ((b : Int) * ZBLKSZ) off = ((b * ZBLKSZ ||| off : Nat) : Int) := rfl
  rw [hlor, ZBLKSZ, Nat.mul_comm, ← Nat.two_pow_add_eq_or_of_lt hoff]
  push_cast
  ring

end Addresses

end Btlib
