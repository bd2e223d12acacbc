import Xv6.FileWrite
import Xv6.Proofs.FsBytes

/-!
# A chunk of `filewrite` fits a transaction

Each round of the loop in `writei` gives to `log_write` the data block, its bitmap block if it is new, and the indirect block
with the bitmap block of that one (`wp_bmap_log`). The indirect block is the same in all rounds. A chunk that does not start at
a block boundary has one round more, and its first block is not new, because there is no hole below the size: four data blocks,
three bitmap blocks, the indirect block and its bitmap block, and the inode block.

Nothing else is assumed of the file system: blocks may be shared and the bitmap wrong.
-/

namespace Xv6

namespace Fs

open Prog

variable {sb : Super} {s s' : Fs} {inum bn off n tot : Nat} {ip ip' : Inode} {src : Src}

/-! ### One block -/

/-- What `bmap` gives to `log_write` when it returns `addr`. -/
structure MapLog (sb : Super) (s : Fs) (ip : Inode) (bn addr : Nat) (ip' : Inode) (s' : Fs) : Prop where
  size : ip'.size = ip.size
  indirect (h : ip.addrs Inode.indirect ≠ 0) : ip'.addrs Inode.indirect = ip.addrs Inode.indirect
  logged (b : Nat) (h : b ∈ s'.logged) : b ∈ s.logged ∨ (blockOf s.data ip bn = 0 ∧ (b = addr ∨ b = sb.BBLOCK addr)) ∨
    (ip'.addrs Inode.indirect ≠ 0 ∨ addr = 0) ∧ (b = ip'.addrs Inode.indirect ∨ b = sb.BBLOCK (ip'.addrs Inode.indirect))

theorem wp_bmapEntry_log {Q : Nat × Inode → Fs → Prop} {blk k : Nat}
    (hQ : ∀ addr s', (∀ b ∈ s'.logged, b ∈ s.logged ∨ (s.data blk).load (4 * k) 4 = 0 ∧ (b = addr ∨ b = sb.BBLOCK addr) ∨ b = blk) →
      Q (addr, ip) s') :
    wp (do
      let a := ((← get).data blk).load (4 * k) 4
      if a = 0 then
        let addr ← balloc sb
        if addr = 0 then
          return (0, ip)
        else
          setBlock blk (((← get).data blk).store (4 * k) 4 addr)
          logWrite blk
          return (addr, ip)
      else
        return (a, ip) : FsM (Nat × Inode)) Q s := by
  rw [wp_bind, wp_get]
  dsimp only
  split
  · rename_i hx
    rw [wp_bind]
    refine wp_balloc (fun _ => ?_) fun b hb hfree => ?_
    · rw [if_pos rfl, wp_pure]
      exact hQ 0 s fun b hb => .inl hb
    · split
      · rename_i h0
        subst h0
        rw [wp_pure]
        refine hQ 0 _ fun b hb => (mem_taken.mp hb).imp_right fun h => .inl ⟨hx, h.symm⟩
      · simp only [setBlock, logWrite, wp_bind, wp_get, wp_modify, wp_pure]
        refine hQ b _ fun b' hb' => ?_
        rcases List.mem_append.mp hb' with hb' | hb'
        · exact (mem_taken.mp hb').imp_right fun h => .inl ⟨hx, h.symm⟩
        · exact .inr (.inr (List.mem_singleton.mp hb'))
  · rw [wp_pure]
    exact hQ _ s fun b hb => .inl hb

theorem wp_bmap_log {Q : Nat × Inode → Fs → Prop} (hbn : bn < MAXFILE)
    (hQ : ∀ addr ip' s', MapLog sb s ip bn addr ip' s' → Q (addr, ip') s') : wp (bmap sb ip bn) Q s := by
  have hsame : ∀ addr, MapLog sb s ip bn addr ip s := fun _ => ⟨rfl, fun _ => rfl, fun _ hb => .inl hb⟩
  rw [bmap]
  split
  · rename_i hdir
    have hblock : blockOf s.data ip bn = ip.addrs ⟨bn, Nat.lt_succ_of_lt hdir⟩ := by
      rw [blockOf_of_lt hbn, slotOf_direct hdir, slot]
    dsimp only
    split
    · rename_i hx
      rw [wp_bind]
      refine wp_balloc (fun _ => ?_) fun b hb hfree => ?_
      · rw [if_pos rfl, wp_pure]
        exact hQ _ _ _ (hsame 0)
      · have hlog : ∀ b' ∈ (s.taken sb b).logged, b' ∈ s.logged ∨ blockOf s.data ip bn = 0 ∧ (b' = b ∨ b' = sb.BBLOCK b) :=
          fun b' hb' => (mem_taken.mp hb').imp_right fun h => ⟨hblock.trans hx, h.symm⟩
        split
        · rename_i h0
          subst h0
          rw [wp_pure]
          exact hQ _ _ _ ⟨rfl, fun _ => rfl, fun b' hb' => (hlog b' hb').imp_right .inl⟩
        · rw [wp_pure]
          refine hQ _ _ _ ⟨rfl, fun _ => ip.setAddr_of_ne ?_, fun b' hb' => (hlog b' hb').imp_right .inl⟩
          intro he
          have : NDIRECT = bn := congrArg Fin.val he
          omega
    · rw [wp_pure]
      exact hQ _ _ _ (hsame _)
  · rename_i hdir
    have hk : bn - NDIRECT < NINDIRECT := by
      simp only [MAXFILE] at hbn
      omega
    have hblock : blockOf s.data ip bn = slot s.data ip (.ind ⟨bn - NDIRECT, hk⟩) := by
      rw [blockOf_of_lt hbn, slotOf_ind hdir hk]
    rw [if_pos hk]
    dsimp only
    split
    · rename_i hx
      have hzero : blockOf s.data ip bn = 0 := hblock.trans (if_pos hx)
      rw [wp_bind]
      refine wp_balloc (fun _ => ?_) fun b hb hfree => ?_
      · rw [if_pos rfl, wp_pure]
        exact hQ _ _ _ (hsame 0)
      · split
        · rename_i h0
          subst h0
          rw [wp_pure]
          refine hQ _ _ _ ⟨rfl, fun _ => rfl, fun b' hb' => ?_⟩
          rw [hx]
          exact (mem_taken.mp hb').imp_right fun h => .inr ⟨.inr rfl, h.symm⟩
        · rename_i hb0
          refine wp_bmapEntry_log fun addr s' hlog => hQ _ _ _ ⟨rfl, fun hne => absurd hx hne, fun b' hb' => ?_⟩
          rw [ip.setAddr_self]
          rcases hlog b' hb' with h | ⟨-, h⟩ | h
          · exact (mem_taken.mp h).imp_right fun h => .inr ⟨.inl hb0, h.symm⟩
          · exact .inr (.inl ⟨hzero, h⟩)
          · exact .inr (.inr ⟨.inl hb0, .inl h⟩)
    · rename_i hx
      rw [wp_bind, wp_pure, if_neg hx, Inode.setAddr_eq_self rfl]
      refine wp_bmapEntry_log fun addr s' hlog => hQ _ _ _ ⟨rfl, fun _ => rfl, fun b' hb' => ?_⟩
      rcases hlog b' hb' with h | ⟨h₀, h⟩ | h
      · exact .inl h
      · exact .inr (.inl ⟨hblock.trans ((if_neg hx).trans h₀), h⟩)
      · exact .inr (.inr ⟨.inl hx, .inl h⟩)

/-! ### The loop -/

/-- The number of blocks that `k` bytes from `off` on are in. -/
def rounds (off k : Nat) : Nat := if k = 0 then 0 else (off % BSIZE + k + BSIZE - 1) / BSIZE

/-- What `writei` gives to `log_write` before `iupdate`: data blocks `D`, the bitmap blocks `A` for those that are new, and the
indirect block with its bitmap block. -/
structure LoopLog (sb : Super) (s : Fs) (ip : Inode) (off k : Nat) (ip' : Inode) (s' : Fs) (D A : List Nat) : Prop where
  indirect (h : ip.addrs Inode.indirect ≠ 0) : ip'.addrs Inode.indirect = ip.addrs Inode.indirect
  data : D.length ≤ rounds off k
  bitmap : A.length ≤ rounds off k
  /-- The first block is not new. -/
  first (h : blockOf s.data ip (off / BSIZE) ≠ 0) : A.length ≤ rounds off k - 1
  logged (b : Nat) (h : b ∈ s'.logged) :
    b ∈ s.logged ∨ b ∈ D ∨ b ∈ A ∨ b = ip'.addrs Inode.indirect ∨ b = sb.BBLOCK (ip'.addrs Inode.indirect)

/-- The bitmap block of a data block, if that is new. -/
def newBitmap (sb : Super) (s : Fs) (ip : Inode) (bn addr : Nat) : List Nat :=
  if blockOf s.data ip bn = 0 then [sb.BBLOCK addr] else []

variable {s₁ s₂ : Fs} {ip'' : Inode} {addr k m : Nat} {D A : List Nat}

theorem length_newBitmap (sb : Super) (s : Fs) (ip : Inode) (bn addr : Nat) : (newBitmap sb s ip bn addr).length ≤ 1 := by
  rw [newBitmap]
  split <;> simp

theorem newBitmap_of_ne (h : blockOf s.data ip bn ≠ 0) : newBitmap sb s ip bn addr = [] := if_neg h

theorem MapLog.mem (h : MapLog sb s ip bn addr ip' s') {b : Nat} (hb : b ∈ s'.logged) :
    b ∈ s.logged ∨ b ∈ addr :: newBitmap sb s ip bn addr ∨ (ip'.addrs Inode.indirect ≠ 0 ∨ addr = 0) ∧
      (b = ip'.addrs Inode.indirect ∨ b = sb.BBLOCK (ip'.addrs Inode.indirect)) := by
  refine (h.logged b hb).imp_right (Or.imp_left fun ⟨h₀, hb⟩ => ?_)
  rw [newBitmap, if_pos h₀]
  simpa using hb

namespace LoopLog

theorem nil : LoopLog sb s ip off k ip s [] [] :=
  ⟨fun _ => rfl, Nat.zero_le _, Nat.zero_le _, fun _ => Nat.zero_le _, fun _ hb => .inl hb⟩

theorem stop (h : MapLog sb s ip (off / BSIZE) addr ip' s₁) (hs : s'.logged = s₁.logged) (hr : 1 ≤ rounds off k) :
    LoopLog sb s ip off k ip' s' [addr] (newBitmap sb s ip (off / BSIZE) addr) := by
  refine ⟨h.indirect, hr, (length_newBitmap ..).trans hr, fun hne => ?_, fun b hb => ?_⟩
  · rw [newBitmap_of_ne hne]
    exact Nat.zero_le _
  · rcases h.mem (hs ▸ hb) with hb | hb | ⟨-, hb⟩
    · exact .inl hb
    · rw [List.mem_cons] at hb
      exact .inr (hb.imp List.mem_singleton.mpr .inl)
    · exact .inr (.inr (.inr hb))

theorem cons (h : MapLog sb s ip (off / BSIZE) addr ip' s₁) (haddr : addr ≠ 0) (hs : s₂.logged = s₁.logged ++ [addr])
    (hloop : LoopLog sb s₂ ip' (off + m) (k - m) ip'' s' D A) (hr : rounds (off + m) (k - m) + 1 ≤ rounds off k) :
    LoopLog sb s ip off k ip'' s' (addr :: D) (newBitmap sb s ip (off / BSIZE) addr ++ A) := by
  have hD := hloop.data
  have hA := hloop.bitmap
  have hnew := length_newBitmap sb s ip (off / BSIZE) addr
  refine ⟨fun hne => ?_, ?_, ?_, fun hne => ?_, fun b hb => ?_⟩
  · have := h.indirect hne
    rw [hloop.indirect (this ▸ hne), this]
  · rw [List.length_cons]
    omega
  · rw [List.length_append]
    omega
  · rw [newBitmap_of_ne hne, List.nil_append]
    omega
  · rw [List.mem_cons, List.mem_append]
    rcases hloop.logged b hb with hb | hb | hb | hb
    · rw [hs, List.mem_append, List.mem_singleton] at hb
      rcases hb with hb | hb
      · rcases h.mem hb with hb | hb | ⟨hne, hb⟩
        · exact .inl hb
        · rw [List.mem_cons] at hb
          exact .inr (hb.imp .inl fun hb => .inl (.inl hb))
        · rw [hloop.indirect (hne.resolve_right haddr)]
          exact .inr (.inr (.inr hb))
      · exact .inr (.inl (.inl hb))
    · exact .inr (.inl (.inr hb))
    · exact .inr (.inr (.inl (.inr hb)))
    · exact .inr (.inr (.inr hb))

end LoopLog

theorem rounds_add (hk : 0 < k) (hm : m = min k (BSIZE - off % BSIZE)) : rounds (off + m) (k - m) + 1 ≤ rounds off k := by
  rw [rounds, rounds, if_neg (by omega : ¬ k = 0)]
  simp only [BSIZE] at hm ⊢
  split <;> omega

theorem wp_writeLoop_log {turns : Nat} (hoff : off + (n - tot) ≤ MAXFILE * BSIZE) :
    wp (writeLoop sb src n turns ip tot off) (fun r s' => ∃ D A, LoopLog sb s ip off (n - tot) r.2.2 s' D A) s := by
  induction turns generalizing ip tot off s with
  | zero =>
    rw [writeLoop, wp_pure]
    exact ⟨[], [], .nil⟩
  | succ turns ih =>
    rw [writeLoop]
    split
    · rename_i hlt
      have hbn : off / BSIZE < MAXFILE := by
        rw [Nat.div_lt_iff_lt_mul (by simp only [BSIZE]; omega)]
        omega
      have hrounds : 1 ≤ rounds off (n - tot) := by
        rw [rounds, if_neg (by omega)]
        simp only [BSIZE]
        omega
      rw [wp_bind]
      refine wp_bmap_log hbn fun addr ip' s₁ hlog => ?_
      dsimp only
      split
      · rw [wp_pure]
        exact ⟨_, _, .stop hlog rfl hrounds⟩
      · rename_i haddr
        rw [wp_bind, wp_get]
        generalize hm : min (n - tot) (BSIZE - off % BSIZE) = m
        generalize eitherCopyin src tot (s₁.data addr) (off % BSIZE) m = c
        obtain ⟨ok, blk⟩ := c
        simp only [setBlock, logWrite, wp_bind, wp_modify]
        split
        · simp only [wp_bind, wp_modify]
          refine (ih (by omega)).mono fun r s' hr => ?_
          obtain ⟨D, A, hloop⟩ := hr
          rw [← Nat.sub_sub] at hloop
          exact ⟨_, _, .cons hlog haddr rfl hloop (rounds_add (by omega) hm.symm)⟩
        · rw [wp_pure]
          exact ⟨_, _, .stop hlog rfl hrounds⟩
    · rw [wp_pure]
      exact ⟨[], [], .nil⟩

/-! ### A transaction -/

theorem rounds_le (off : Nat) (hn : n ≤ Writer.maxChunk) : rounds off n ≤ 4 ∧ (off % BSIZE = 0 → rounds off n ≤ 3) := by
  simp only [Writer.maxChunk, MAXOPBLOCKS, BSIZE] at hn
  rw [rounds]
  simp only [BSIZE]
  split <;> omega

theorem NoHole.first_ne (h : NoHole s.data ip) (hoff : off ≤ ip.size) (hmod : off % BSIZE ≠ 0) :
    blockOf s.data ip (off / BSIZE) ≠ 0 := by
  have hpos : off - 1 < ip.size := by
    simp only [BSIZE] at hmod
    omega
  have hdiv : (off - 1) / BSIZE = off / BSIZE := by
    simp only [BSIZE] at hmod ⊢
    omega
  have := h (off - 1) hpos
  rwa [hdiv] at this

theorem LoopLog.card_le (h : LoopLog sb s ip off n ip' s' D A) (hn : n ≤ Writer.maxChunk) (hhole : NoHole s.data ip)
    (hoff : off ≤ ip.size) : D.length + A.length ≤ 7 := by
  obtain ⟨h4, h3⟩ := rounds_le off hn
  have hD := h.data
  have hA := h.bitmap
  by_cases hmod : off % BSIZE = 0
  · have := h3 hmod
    omega
  · have := h.first (hhole.first_ne hoff hmod)
    omega

theorem wp_writei_log (sb : Super) (inum : Nat) (ip : Inode) (src : Src) (off : Nat) (s : Fs) (hn : n ≤ Writer.maxChunk) :
    wp (writei sb inum ip src off n) (fun _ s' => NoHole s.data ip →
      ∃ L : List Nat, L.length ≤ MAXOPBLOCKS ∧ ∀ b ∈ s'.logged, b ∈ s.logged ∨ b ∈ L) s := by
  rw [writei]
  split
  · rw [wp_pure]
    exact fun _ => ⟨[], Nat.zero_le _, fun b hb => .inl hb⟩
  · rename_i h1
    split
    · rw [wp_pure]
      exact fun _ => ⟨[], Nat.zero_le _, fun b hb => .inl hb⟩
    · rename_i h2
      have hbound : off + n ≤ MAXFILE * BSIZE := by
        simp only [Writer.maxChunk, MAXOPBLOCKS, BSIZE] at hn
        omega
      rw [wp_bind]
      refine (wp_writeLoop_log (by omega)).mono fun r s₁ hr => ?_
      obtain ⟨D, A, hlog⟩ := hr
      obtain ⟨tot, off', ip'⟩ := r
      dsimp only at hlog ⊢
      rw [wp_bind]
      simp only [iupdate, setBlock, logWrite, wp_bind, wp_get, wp_modify, wp_pure]
      intro hhole
      have hcard := hlog.card_le hn hhole (by omega)
      refine ⟨D ++ A ++ [ip'.addrs Inode.indirect, sb.BBLOCK (ip'.addrs Inode.indirect), sb.IBLOCK inum], ?_, fun b hb => ?_⟩
      · simp only [List.length_append, List.length_cons, List.length_nil, MAXOPBLOCKS]
        omega
      · simp only [List.mem_append, List.mem_cons, List.not_mem_nil, or_false] at hb ⊢
        rcases hb with hb | hb
        · rcases hlog.logged b hb with hb | hb | hb | hb | hb
          · exact .inl hb
          · exact .inr (.inl (.inl hb))
          · exact .inr (.inl (.inr hb))
          · exact .inr (.inr (.inl hb))
          · exact .inr (.inr (.inr (.inl hb)))
        · exact .inr (.inr (.inr (.inr hb)))

end Fs

namespace Writer

open Prog

/-- Each transaction of a file without holes has fitted. -/
def Fit (s : Writer) : Prop := ∀ t ∈ s.ops, Fs.NoHole t.1.data t.1.ip → t.2.toFinset.card ≤ MAXOPBLOCKS

variable {sb : Super} {inum : Nat} {env : Nat → World → World} {pages : Nat → Option Bytes} {addr i n1 : Nat} {s : Writer}

theorem wp_transact (h : s.Fit) (hn : n1 ≤ maxChunk) : wp (transact sb inum pages addr i n1) (fun _ s' => s'.Fit) s := by
  rw [transact, wp_bind, wp_get, wp_zoom]
  refine (Fs.wp_writei_log sb inum s.world.ip _ s.world.off { data := s.world.data, logged := [] } hn).mono fun r t ht => ?_
  intro t' ht' hhole
  rcases List.mem_append.mp ht' with ht' | ht'
  · exact h t' ht' hhole
  · rw [List.mem_singleton] at ht'
    subst ht'
    obtain ⟨L, hL, hsub⟩ := ht hhole
    have hsub : t.logged.toFinset ⊆ L.toFinset := by
      intro b hb
      rw [List.mem_toFinset] at hb ⊢
      exact (hsub b hb).resolve_left List.not_mem_nil
    calc t.logged.toFinset.card ≤ L.toFinset.card := Finset.card_le_card hsub
      _ ≤ L.length := L.toFinset_card_le
      _ ≤ MAXOPBLOCKS := hL

theorem wp_chunk (h : s.Fit) (hn : n1 ≤ maxChunk) : wp (chunk sb inum env pages addr i n1) (fun _ s' => s'.Fit) s := by
  simp only [chunk, wp_bind, wp_modify]
  refine (wp_transact (s := { s with world := env i s.world }) h hn).mono fun r s' h' => ?_
  simp only [wp_bind, wp_modify, wp_pure]
  exact h'

theorem wp_loop {n : Int} {turns : Nat} (h : s.Fit) : wp (loop sb inum env pages addr n turns i) (fun _ s' => s'.Fit) s := by
  induction turns generalizing i s with
  | zero =>
    rw [loop, wp_pure]
    exact h
  | succ turns ih =>
    rw [loop]
    split
    · dsimp only
      generalize hn1 : (if n - i > maxChunk then maxChunk else (n - i).toNat) = n1
      have hn : n1 ≤ maxChunk := by
        rw [← hn1]
        split <;> omega
      rw [wp_bind]
      refine (wp_chunk h hn).mono fun r s' h' => ?_
      split
      · rw [wp_pure]
        exact h'
      · exact ih h'
    · rw [wp_pure]
      exact h

/-- Whatever other processes do between the chunks of a write, each chunk that finds an inode without holes gives at most
`MAXOPBLOCKS` different blocks to `log_write`. -/
theorem filewrite_fits (sb : Super) (inum : Nat) (env : Nat → World → World) (pages : Nat → Option Bytes) (addr : Nat) (n : Int)
    (w : World) :
    wp (filewrite sb inum env pages addr n) (fun _ s => ∀ t ∈ s.ops, Fs.NoHole t.1.data t.1.ip →
      t.2.toFinset.card ≤ MAXOPBLOCKS) { world := w, ops := [] } := by
  rw [filewrite, wp_bind]
  refine (wp_loop fun t ht => absurd ht List.not_mem_nil).mono fun i s h => ?_
  rw [wp_pure]
  exact h

end Writer

end Xv6
