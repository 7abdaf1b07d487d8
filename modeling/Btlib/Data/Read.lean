import Btlib.Data.Put

namespace Btlib

variable [Build] {s : St} {fs D os : List Int} {ps rs : List Seg} {p q : Seg} {n m : Nat}

omit [Build] in
theorem Block.take_bytes (b : Block) (i : Int) (hm : m ≤ n) : (b.bytes i n).take m = b.bytes i m := by
  rw [Block.bytes_eq, Block.bytes_eq, ← List.map_take, List.take_range, Nat.min_eq_left hm]

theorem Stored.addr_ne (h : Stored s fs D os ps) (hp : p ∈ ps) (hq : q ∈ ps) (hpq : p.Apart q) : q.addr ≠ p.addr := by
  intro haddr
  have hcnv := h.cnvdraddr_addr hq
  rw [haddr, h.cnvdraddr_addr hp] at hcnv
  obtain ⟨hblk,hoff⟩ := Prod.mk.inj hcnv
  have hp0 := p.size_pos
  have hq0 := q.size_pos
  have := hpq hblk
  omega

theorem Stored.headAddr_ne (h : Stored s fs D os ps) (hrs : (p :: rs).Sublist ps) : headAddr rs ≠ p.addr := by
  have hp := hrs.subset List.mem_cons_self
  cases rs with
  | nil => exact (h.addr_pos hp).ne
  | cons q rs =>
      have hpq := (List.pairwise_cons.1 (h.apart.sublist hrs)).1 q List.mem_cons_self
      exact h.addr_ne hp (hrs.subset (List.mem_cons_of_mem _ List.mem_cons_self)) hpq

-- Induction on the segments: `bs` are the bytes of those before, and `k` may still be copied.
theorem exec_bseldtLoop (hz : SizedData) (h : Stored s fs D os ps) (hrs : ∀ p ∈ rs, p ∈ ps) (hc : Seg.Chain s rs)
    (hn : rs.length < n) (k : Int) (bs : List Byte) : exec (bseldtLoop n (headAddr rs) k bs) s =
      .done ((((bs ++ (content rs).take k.toNat).length : Int), bs ++ (content rs).take k.toNat), s) := by
  induction rs generalizing n k bs with
  | nil =>
      obtain ⟨n,rfl⟩ := Nat.exists_eq_succ_of_ne_zero (Nat.ne_of_gt hn)
      simp [bseldtLoop, headAddr]
  | cons p rs ih =>
      obtain ⟨n,rfl⟩ := Nat.exists_eq_succ_of_ne_zero (Nat.ne_of_gt (lt_of_le_of_lt (Nat.zero_le _) hn))
      obtain ⟨hat,hrest⟩ := hc
      have hmem := hrs p List.mem_cons_self
      have hD := (h.seg p hmem).1
      have hhas := h.has hD
      have haddr : headAddr (p :: rs) = p.addr := rfl
      by_cases hk : 0 < k
      · have hcond : 0 < k ∧ p.addr ≠ 0 := ⟨hk,(h.addr_pos hmem).ne'⟩
        have hsize := Block.SegAt.rdsz hz hat (h.length_le hmem)
        have hnext := Block.SegAt.rdint hat (h.fits_headAddr hz fun q hq => hrs q (List.mem_cons_of_mem _ hq))
        obtain ⟨c,hc⟩ : ∃ c : Nat, (c : Int) = if k < p.bytes.length then k else p.bytes.length :=
          ⟨min k.toNat p.bytes.length,by split <;> omega⟩
        have hcle : c ≤ p.bytes.length := by
          split at hc <;> omega
        have hdata : (s.disk.block p.blk).bytes (p.off + ZDOVRH) c = p.bytes.take c := by
          rw [← Block.take_bytes _ _ hcle, hat.data]
        have htake : (content (p :: rs)).take k.toNat = p.bytes.take c ++ (content rs).take (k - c).toNat := by
          rw [content_cons, List.take_append]
          split at hc
          · rw [← hc, Int.toNat_natCast, sub_self, Nat.sub_eq_zero_of_le hcle]
            rfl
          · have hk' : p.bytes.length ≤ k.toNat := by omega
            have hc' : p.bytes.length ≤ c := by omega
            have hrest : k.toNat - p.bytes.length = (k - c).toNat := by omega
            rw [List.take_of_length_le hk', List.take_of_length_le hc', hrest]
        have hloop := ih (fun q hq => hrs q (List.mem_cons_of_mem _ hq)) hrest (Nat.lt_of_succ_lt_succ hn) (k - c)
          (bs ++ p.bytes.take c)
        rw [List.append_assoc, ← htake] at hloop
        rw [haddr]
        simp only [bseldtLoop, if_pos hcond, exec_bind, h.cnvdraddr_addr hmem, exec_bgtinf hhas,
          Prog.Outcome.bind_done, Block.getInf_ZBTYPE, (h.block _ hD).type, ne_eq, not_true_eq_false, false_and, if_false,
          exec_brdblk, Disk.read_eq hhas]
        rw [hsize, hnext, ← hc, Int.toNat_natCast, hdata, hloop]
      · have hcond : ¬ (0 < k ∧ headAddr (p :: rs) ≠ 0) := fun h0 => hk h0.1
        have hk0 : k.toNat = 0 := by omega
        rw [bseldtLoop, if_neg hcond, exec_pure, hk0, List.take_zero, List.append_nil]

theorem exec_brecszLoop (hz : SizedData) (h : Stored s fs D os ps) (hrs : rs.Sublist ps) (hc : Seg.Chain s rs)
    (hn : rs.length < n) (k : Int) :
    exec (brecszLoop n (headAddr rs) k) s = .done (k + (content rs).length, s) := by
  induction rs generalizing n k with
  | nil =>
      obtain ⟨n,rfl⟩ := Nat.exists_eq_succ_of_ne_zero (Nat.ne_of_gt hn)
      simp [brecszLoop, headAddr]
  | cons p rs ih =>
      obtain ⟨n,rfl⟩ := Nat.exists_eq_succ_of_ne_zero (Nat.ne_of_gt (lt_of_le_of_lt (Nat.zero_le _) hn))
      obtain ⟨hat,hrest⟩ := hc
      have hmem := hrs.subset (List.mem_cons_self (a := p) (l := rs))
      have hD := (h.seg p hmem).1
      have haddr : headAddr (p :: rs) = p.addr := rfl
      have hsub := (List.sublist_cons_self p rs).trans hrs
      have hseg := exec_getseginfo hz h hmem hat (h.fits_headAddr hz fun q hq => hsub.subset hq)
      have hloop := ih hsub hrest (Nat.lt_of_succ_lt_succ hn) (k + p.bytes.length)
      have hlen : k + p.bytes.length + (content rs).length = k + ((content (p :: rs)).length : Int) := by
        rw [content_cons, List.length_append, Nat.cast_add, add_assoc]
      rw [haddr, brecszLoop, if_neg (h.addr_pos hmem).ne']
      simp only [exec_bind, h.cnvdraddr_addr hmem, exec_bgtinf (h.has hD), Prog.Outcome.bind_done, Block.getInf_ZBTYPE,
        (h.block _ hD).type, ne_eq, not_true_eq_false, if_false, hseg, if_neg (h.headAddr_ne hrs), hloop, hlen]

end Btlib
