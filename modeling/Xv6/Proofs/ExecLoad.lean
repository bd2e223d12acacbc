import Xv6.Proofs.ExecStack
import Xv6.Proofs.FsFile
import Xv6.Proofs.Growproc
import Xv6.Proofs.TableView

/-!
# The image that `exec` loads

User memory is read through the page table: `phys` says where a byte is. Each segment goes to new pages at the end of
the user's memory, and whatever comes later keeps the pages below (`Keeps`): other segments, the stack, and freeing the
old image.
-/

namespace Xv6

open Ghost Prog Kern

variable {K : Layout} {r n v va j off fsz sz np : Nat} {m m' m'' : Bytes} {s s' : Kmem} {node node' : Nat → Nat → Option Nat}
  {L L' : List Nat} {U : Nat → Prop} {data : List UInt8} {argv : List Nat} {ph : Proghdr}

/-! ### Pages that stay -/

theorem PInv.keeps {k k' : Kmem} {g : Ghost Tag} {t : Nat} (h : PInv K k g) (hS : Space K g r n t)
    (hsame : ∀ {p l x}, g.own p = some (.node r l x) → SamePage k.mem k'.mem p) : Keeps r n k.mem k'.mem := by
  have hnode : ∀ {l x p}, nodeOf k.mem r l x = some p → SamePage k.mem k'.mem p := fun hp =>
    hsame ((nodeOf_iff h hS.table.root).mp hp).2
  have htree := pageTree_nodeOf h hS.table.root
  have hb := h.leaves_le hS.table
  refine .of_pages htree (htree.of_same fun _ _ _ => hnode) (by omega) (fun _ _ => leafOf_of_same fun _ _ => hnode)
    fun v hv => ?_
  obtain ⟨-, -, -, hown⟩ := leafOf_owned h hS hv
  exact hsame hown

/-! ### A segment -/

theorem UserSpace.write (h : UserSpace K r node L s U) (hv : U v)
    (hm : Outside s.mem m' (PTE2PA (leafOf s.mem node v))) :
    UserSpace K r node L { s with mem := m' } U ∧ leafOf m' node = leafOf s.mem node := by
  have hleaf : leafOf m' node = leafOf s.mem node := funext fun _ => leafOf_of_same fun _ _ hq =>
    hm.samePage PTE2PA_aligned (h.sound.pool.tree.aligned hq) fun he => h.page_apart hv _ _ (he ▸ hq)
  have hpool := h.sound.pool.write hm PTE2PA_aligned (h.page_apart hv) (h.page_not_mem hv)
  refine ⟨⟨⟨hpool, fun v hv => ?_⟩, h.page, fun hv => ?_, fun hv hv' he => ?_, fun hv hn => ?_⟩, hleaf⟩
  · rw [hleaf] at hv ⊢
    exact h.sound.leaves v hv
  · rw [hleaf]
    exact h.user hv
  · rw [hleaf] at hv' he
    exact h.alone hv hv' he
  · rw [hleaf]
    exact h.empty hv hn

theorem UserSpace.phys_copy {f : Bytes} {c len : Nat} (h : UserSpace K r node L s (· < np)) (hv : v < np)
    (hc : c = PTE2PA (leafOf s.mem node v)) (hlen : len ≤ PGSIZE) (hva : va < np * PGSIZE) :
    (s.mem.copy c f 0 len) (phys (s.mem.copy c f 0 len) r va) =
      if v * PGSIZE ≤ va ∧ va < v * PGSIZE + len then f (va - v * PGSIZE) else s.mem (phys s.mem r va) := by
  have hlt : va / PGSIZE < np := Nat.div_lt_of_lt_mul (by rwa [mul_comm])
  have hout : Outside s.mem (s.mem.copy c f 0 len) (PTE2PA (leafOf s.mem node v)) := by
    rw [← hc]
    exact outside_copy (le_rfl) (by omega)
  obtain ⟨h', hleaf⟩ := h.write hv hout
  have hmod := Nat.mod_lt va (show PGSIZE > 0 by decide)
  have hdiv := Nat.div_add_mod va PGSIZE
  rw [phys, phys, h'.sound.pool.tree.pteOf_eq (h.page_lt hlt), h.sound.pool.tree.pteOf_eq (h.page_lt hlt)]
  show (s.mem.copy c f 0 len) (PTE2PA (leafOf (s.mem.copy c f 0 len) node (va / PGSIZE)) + va % PGSIZE) = _
  rw [hleaf, Bytes.copy]
  by_cases hp : va / PGSIZE = v
  · have hoff : va - v * PGSIZE = va % PGSIZE := by rw [← hp, mul_comm]; omega
    have hge : v * PGSIZE ≤ va := by rw [← hp, mul_comm]; omega
    rw [hp, ← hc]
    by_cases hin : va % PGSIZE < len
    · rw [if_pos (by omega), if_pos (by omega), hoff]
      congr 1
      omega
    · rw [if_neg (by omega), if_neg (by omega)]
  · have hne : ¬ (v * PGSIZE ≤ va ∧ va < v * PGSIZE + len) := fun hin => hp (by
      rw [Nat.div_eq_iff (by decide)]
      simp only [PGSIZE] at *
      omega)
    have hpage : PTE2PA (leafOf s.mem node (va / PGSIZE)) ≠ c := fun he =>
      hp (h.alone hlt (h.user hv).2.valid (he.trans hc))
    have h1 : PTE2PA (leafOf s.mem node (va / PGSIZE)) % PGSIZE = 0 := PTE2PA_aligned
    have h2 : c % PGSIZE = 0 := hc ▸ PTE2PA_aligned
    rw [if_neg (by simp only [PGSIZE] at *; omega), if_neg hne]

/-- What the file system's `readi` does with a file, for its content. -/
theorem wp_readi_contents_kernel {fs : Fs} {sb : Super} {ip : Inode} (h : Fs.NoHole fs.data ip) (hoff : off < 2 ^ 32) (hn : n < 2 ^ 32) :
    wp (Fs.readi sb ip .kernel off n) (fun q fs' => fs' = fs ∧
      q = (((readi (Fs.contents fs.data ip) off n).length : Int), readi (Fs.contents fs.data ip) off n, ip)) fs := by
  have hlen : (Fs.contents fs.data ip).length = ip.size := by simp [Fs.contents, Fs.bytes]
  rw [readi, hlen]
  by_cases hout : off > ip.size ∨ (off + n) % 2 ^ 32 < off
  · rw [Fs.readi, if_pos hout, if_pos hout, wp_pure]
    exact ⟨rfl, rfl⟩
  · rw [if_neg hout]
    refine Fs.wp_readi h (by omega) (by omega) trivial ⟨rfl, ?_⟩
    have htake : ((Fs.contents fs.data ip).drop off).take n = Fs.bytes fs.data ip off (min n (ip.size - off)) := by
      refine List.ext_getElem (by simp [hlen, Fs.bytes]) fun k h1 h2 => ?_
      simp [Fs.contents, Fs.bytes]
    rw [htake]
    simp [Fs.bytes]

theorem readi_full {n : Nat} (h : (readi data off n).length = n) (hn : 0 < n) :
    off + n ≤ data.length ∧ ∀ k < n, (readi data off n).getD k 0 = data.getD (off + k) 0 := by
  rw [readi] at h ⊢
  split at h
  · simp at h
    omega
  · rename_i hno
    rw [if_neg hno]
    simp only [List.length_take, List.length_drop] at h
    refine ⟨by omega, fun k hk => ?_⟩
    simp [List.getD, hk]

theorem wpe_loadsegLoop {Q : Bool → Kmem → Prop} (h : UserSpace K r node L s (· < np)) (hlen : data.length < 2 ^ 32)
    (hn : v + (j + n) ≤ np) (hsz : fsz ≤ (j + n) * PGSIZE) (hsz' : (j + n) * PGSIZE < fsz + PGSIZE)
    (hoff : 0 < n → off + j * PGSIZE < 2 ^ 32) (h0 : ∀ s', Q false s')
    (h1 : ∀ s', UserSpace K r node L s' (· < np) → (∀ w < np, pteOf s'.mem r w = pteOf s.mem r w) →
      (0 < n → off + fsz ≤ data.length) →
      (∀ va < np * PGSIZE, s'.mem (phys s'.mem r va) = if (v + j) * PGSIZE ≤ va ∧ va < v * PGSIZE + fsz then
        data.getD (off + (va - v * PGSIZE)) 0 else s.mem (phys s.mem r va)) → Q true s') :
    wpe (loadsegLoop r (v * PGSIZE) data off fsz n (j * PGSIZE)) Q (fun _ => True) s := by
  have hP : PGSIZE = 4096 := rfl
  induction n generalizing j s with
  | zero =>
    refine h1 s h (fun _ _ => rfl) (fun h => absurd h (by omega)) fun va _ => (if_neg fun hin => ?_).symm
    rw [add_mul] at hin
    rw [add_zero] at hsz
    omega
  | succ n ih =>
    have hvj : v + j < np := by omega
    have hfirst := hoff (Nat.succ_pos n)
    have hrounds : (j + (n + 1)) * PGSIZE = j * PGSIZE + n * PGSIZE + PGSIZE := by ring
    rw [hrounds] at hsz hsz'
    rw [loadsegLoop]
    refine wpe_bind (wp.wpe (wp_walkaddr_find.mpr ?_))
    dsimp only
    split
    · exact wpe_bind (wpe_fail trivial)
    rename_i hpa
    -- the page that is found is the one of the user
    have hdiv : (v * PGSIZE + j * PGSIZE) / PGSIZE = v + j := by rw [← add_mul]; exact Nat.mul_div_cancel _ (by decide)
    have hc : walkaddrOf s.mem r (v * PGSIZE + j * PGSIZE) = PTE2PA (leafOf s.mem node (v + j)) := by
      rw [h.sound.pool.tree.walkaddrOf_eq] at hpa ⊢
      split
      · rw [hdiv, h.sound.pool.tree.pteOf_eq (h.page_lt hvj)]
      · rename_i hno
        exact absurd (if_neg hno) hpa
    have hlen' : (if fsz - j * PGSIZE < PGSIZE then fsz - j * PGSIZE else PGSIZE) = min (fsz - j * PGSIZE) PGSIZE := by
      split <;> omega
    rw [hlen', Nat.mod_eq_of_lt hfirst]
    refine wpe_bind (wp.wpe (wp_modify.mpr ?_))
    generalize hbs : readi data (off + j * PGSIZE) (min (fsz - j * PGSIZE) PGSIZE) = bs
    split
    · exact h0 _
    rename_i hread
    obtain ⟨hin, hbytes⟩ := readi_full (hbs ▸ not_not.mp hread) (by omega)
    rw [hbs] at hbytes
    rw [not_not.mp hread]
    generalize hm1 : s.mem.copy _ _ 0 _ = m₁
    have hout : Outside s.mem m₁ (PTE2PA (leafOf s.mem node (v + j))) := by
      rw [← hm1, hc]
      exact outside_copy (le_rfl) (by omega)
    obtain ⟨h', hleaf⟩ := h.write hvj hout
    have hnext := ih (j := j + 1) h' (by omega) (by rw [add_mul, add_mul]; omega)
      (by rw [add_mul, add_mul]; omega) (fun hn => ?_) fun s' hs' hpte hfile hb =>
        h1 s' hs' (fun w hw => ?_) (fun _ => ?_) fun va hva => ?_
    · rwa [Nat.succ_mul] at hnext
    · rw [add_mul]
      have : 1 * PGSIZE ≤ n * PGSIZE := Nat.mul_le_mul_right _ hn
      omega
    · rw [hpte w hw, h'.sound.pool.tree.pteOf_eq (h.page_lt hw), h.sound.pool.tree.pteOf_eq (h.page_lt hw)]
      exact congrFun hleaf w
    · rcases Nat.eq_zero_or_pos n with rfl | hn
      · omega
      · exact hfile hn
    · have hwrite := h.phys_copy (f := fun k => bs.getD k 0) hvj hc (Nat.min_le_right (fsz - j * PGSIZE) PGSIZE) hva
      rw [hm1] at hwrite
      have hmul : (v + (j + 1)) * PGSIZE = v * PGSIZE + j * PGSIZE + PGSIZE := by ring
      rw [hb va hva, hmul]
      dsimp only
      rw [hwrite, add_mul]
      by_cases hhi : v * PGSIZE + j * PGSIZE + PGSIZE ≤ va ∧ va < v * PGSIZE + fsz
      · rw [if_pos hhi, if_pos (by omega)]
      · rw [if_neg hhi]
        by_cases hlo : v * PGSIZE + j * PGSIZE ≤ va ∧ va < v * PGSIZE + j * PGSIZE + min (fsz - j * PGSIZE) PGSIZE
        · rw [if_pos hlo, if_pos (by omega), hbytes _ (by omega)]
          congr 1
          omega
        · rw [if_neg hlo, if_neg (by omega)]

/-! ### The program headers -/

theorem loadable_cons_pos {hs : List Proghdr} (h : ph.type = ELF_PROG_LOAD) :
    loadable (ph :: hs) = ph :: loadable hs := List.filter_cons_of_pos (by simpa using h)

theorem loadable_cons_neg {hs : List Proghdr} (h : ph.type ≠ ELF_PROG_LOAD) :
    loadable (ph :: hs) = loadable hs := List.filter_cons_of_neg (by simpa using h)

/-- The segments are in ascending order, on different pages. -/
def Ascending (hs : List Proghdr) : Prop := hs.Pairwise fun a b => PGROUNDUP (a.vaddr + a.memsz) ≤ b.vaddr

/-- The user has the segment in memory, as the header says. -/
structure Loaded (m : Bytes) (r : Nat) (data : List UInt8) (ph : Proghdr) : Prop where
  fits : ph.filesz ≤ ph.memsz
  inside : ∀ k < ph.filesz, ph.off + k < data.length
  byte : ∀ k < ph.filesz, m (phys m r (ph.vaddr + k)) = data.getD (ph.off + k) 0
  zero : ∀ k, ph.filesz ≤ k → k < ph.memsz → m (phys m r (ph.vaddr + k)) = 0
  flags : ∀ v, ph.vaddr ≤ v * PGSIZE → v * PGSIZE < ph.vaddr + ph.memsz →
    pteOf m r v &&& PTE_V ≠ 0 ∧ pteOf m r v &&& PTE_U ≠ 0 ∧ pteOf m r v &&& PTE_R ≠ 0 ∧
    (pteOf m r v &&& PTE_W ≠ 0 ↔ ph.flags &&& 2 ≠ 0) ∧ (pteOf m r v &&& PTE_X ≠ 0 ↔ ph.flags &&& 1 ≠ 0)

theorem le_npg_mul : sz ≤ npg sz * PGSIZE := by
  simp only [npg, PGSIZE]
  omega

theorem Loaded.keeps (h : Loaded m r data ph) (hk : Keeps r n m m')
    (hn : npg (ph.vaddr + ph.memsz) ≤ n) : Loaded m' r data ph := by
  have hle : ph.vaddr + ph.memsz ≤ n * PGSIZE := le_npg_mul.trans (Nat.mul_le_mul_right _ hn)
  have hfits := h.fits
  refine ⟨hfits, h.inside, fun k hk' => ?_, fun k h1 h2 => ?_, fun v h1 h2 => ?_⟩
  · rw [hk.byte _ (by omega)]
    exact h.byte k hk'
  · rw [hk.byte _ (by omega)]
    exact h.zero k h1 h2
  · rw [hk.entry v (Nat.lt_of_mul_lt_mul_right (lt_of_lt_of_le h2 hle))]
    exact h.flags v h1 h2

theorem flags_of_zero {e flags : Nat} (he : PTE_FLAGS e = PTE_R ||| PTE_U ||| flags2perm flags ||| PTE_V) :
    e &&& PTE_V ≠ 0 ∧ e &&& PTE_U ≠ 0 ∧ e &&& PTE_R ≠ 0 ∧ (e &&& PTE_W ≠ 0 ↔ flags &&& 2 ≠ 0) ∧
    (e &&& PTE_X ≠ 0 ↔ flags &&& 1 ≠ 0) := by
  have hbit : ∀ b, b = 0x3FF &&& b → e &&& b = (PTE_R ||| PTE_U ||| flags2perm flags ||| PTE_V) &&& b := fun b hb => by
    rw [← he, PTE_FLAGS, Nat.and_assoc, ← hb]
  rw [hbit PTE_V rfl, hbit PTE_U rfl, hbit PTE_R rfl, hbit PTE_W rfl, hbit PTE_X rfl, flags2perm]
  by_cases hx : flags &&& 1 = 0 <;> by_cases hw : flags &&& 2 = 0 <;>
    simp only [hx, hw, ne_eq, not_true_eq_false, not_false_eq_true, if_true, if_false, iff_true, iff_false] <;> decide

theorem flags2perm_small (flags : Nat) : PTE_R ||| PTE_U ||| flags2perm flags < 1024 ∧
    PTE_R ||| PTE_U ||| flags2perm flags ||| PTE_V ≠ PTE_V := by
  rw [flags2perm]
  by_cases hx : flags &&& 1 = 0 <;> by_cases hw : flags &&& 2 = 0 <;>
    simp only [hx, hw, ne_eq, not_true_eq_false, not_false_eq_true, if_true, if_false] <;> decide

theorem Grew.loaded {s₁ : Kmem} (hg : Grew K r node L s (npg sz) (.zero (flags2perm ph.flags)) node' L' s₁
      (npg (ph.vaddr + ph.memsz))) (hsz : npg sz * PGSIZE ≤ ph.vaddr) (hfits : ph.filesz ≤ ph.memsz)
    (hpte : ∀ w < npg (ph.vaddr + ph.memsz), pteOf s'.mem r w = pteOf s₁.mem r w)
    (hfile : 0 < ph.filesz → ph.off + ph.filesz ≤ data.length)
    (hb : ∀ va < npg (ph.vaddr + ph.memsz) * PGSIZE, s'.mem (phys s'.mem r va) =
      if ph.vaddr ≤ va ∧ va < ph.vaddr + ph.filesz then data.getD (ph.off + (va - ph.vaddr)) 0
      else s₁.mem (phys s₁.mem r va)) : Loaded s'.mem r data ph := by
  have hle : ph.vaddr + ph.memsz ≤ npg (ph.vaddr + ph.memsz) * PGSIZE := le_npg_mul
  refine ⟨hfits, fun k hk => ?_, fun k hk => ?_, fun k h1 h2 => ?_, fun v h1 h2 => ?_⟩
  · have := hfile (by omega)
    omega
  · rw [hb _ (by omega), if_pos (by omega), Nat.add_sub_cancel_left]
  · rw [hb _ (by omega), if_neg (by omega)]
    exact hg.phys_new (by omega) (by omega)
  · have hv : v < npg (ph.vaddr + ph.memsz) := Nat.lt_of_mul_lt_mul_right (lt_of_lt_of_le h2 hle)
    have hv' : npg sz ≤ v := Nat.le_of_mul_le_mul_right (hsz.trans h1) (by decide)
    rw [hpte v hv, hg.space.sound.pool.tree.pteOf_eq (hg.space.page_lt hv)]
    exact flags_of_zero (hg.new v hv' hv).2.1

theorem readi_eq {n : Nat} (h : off + n ≤ data.length) (hlen : data.length < 2 ^ 32) :
    readi data off n = (data.drop off).take n ∧ (readi data off n).length = n := by
  have hno : ¬ (off > data.length ∨ (off + n) % 2 ^ 32 < off) := by omega
  rw [readi, if_neg hno]
  refine ⟨rfl, ?_⟩
  simp only [List.length_take, List.length_drop]
  omega

theorem wpe_loadSegment {Q : Bool × Nat → Kmem → Prop} (ph : Proghdr) (next : Nat → VM (Bool × Nat))
    (h : UserSpace K r node L s (· < npg sz)) (hlen : data.length < 2 ^ 32) (hva : npg sz * PGSIZE ≤ ph.vaddr)
    (h64 : ph.vaddr < 2 ^ 64) (h64' : ph.memsz < 2 ^ 64) (h0 : ∀ sz' s', Q (false, sz') s')
    (h1 : ∀ node' L' s', UserSpace K r node' L' s' (· < npg (ph.vaddr + ph.memsz)) →
      npg sz ≤ npg (ph.vaddr + ph.memsz) → Keeps r (npg sz) s.mem s'.mem →
      ((0 < ph.filesz → ph.off < 2 ^ 32) → Loaded s'.mem r data ph) →
      wpe (next (ph.vaddr + ph.memsz)) Q (fun _ => True) s') : wpe (if ph.memsz < ph.filesz then pure (false, sz) else
      if (ph.vaddr + ph.memsz) % 2 ^ 64 < ph.vaddr then pure (false, sz) else
      if ph.vaddr % PGSIZE ≠ 0 then pure (false, sz) else do
      let sz1 ← uvmalloc K r sz ((ph.vaddr + ph.memsz) % 2 ^ 64) (flags2perm ph.flags)
      if sz1 = 0 then return (false, sz)
      if !(← loadseg r ph.vaddr data (ph.off % 2 ^ 32) (ph.filesz % 2 ^ 32)) then return (false, sz1)
      next sz1) Q (fun _ => True) s := by
  obtain ⟨type, flags, off, vaddr, filesz, memsz⟩ := ph
  dsimp only at *
  by_cases hfits : memsz < filesz
  · rw [if_pos hfits]
    exact h0 ..
  by_cases hwrap : (vaddr + memsz) % 2 ^ 64 < vaddr
  · rw [if_neg hfits, if_pos hwrap]
    exact h0 ..
  by_cases hal : vaddr % PGSIZE ≠ 0
  · rw [if_neg hfits, if_neg hwrap, if_pos hal]
    exact h0 ..
  rw [if_neg hfits, if_neg hwrap, if_neg hal, show (vaddr + memsz) % 2 ^ 64 = vaddr + memsz by omega]
  obtain ⟨v, rfl⟩ : ∃ v, vaddr = v * PGSIZE :=
    ⟨_, (Nat.div_mul_cancel (Nat.dvd_of_mod_eq_zero (not_not.mp hal))).symm⟩
  obtain ⟨hx, hflags⟩ := flags2perm_small flags
  have hle : sz ≤ v * PGSIZE + memsz := (le_npg_mul.trans hva).trans (Nat.le_add_right ..)
  have hend : npg (v * PGSIZE + memsz) = v + npg memsz := by
    simp only [npg, PGSIZE]
    omega
  have hmono : npg filesz ≤ npg memsz := npg_mono (Nat.le_of_not_lt hfits)
  refine wpe_bind (wp.wpe (wp_uvmalloc_grew hx hflags h hle (fun node₁ L₁ s₁ hg => ?_) fun node₁ L₁ s₁ hg => ?_))
  · by_cases hz : v * PGSIZE + memsz = 0
    · rw [if_pos hz]
      exact h0 ..
    have hphys := hg.space.size_le
    have hstop : PHYSTOP < 2 ^ 32 := by decide
    rw [if_neg hz, Nat.mod_eq_of_lt (show filesz < 2 ^ 32 by omega), loadseg, show (0 : Nat) = 0 * PGSIZE from rfl]
    refine wpe_bind (wpe_loadsegLoop (n := npg filesz) hg.space hlen (by rw [zero_add, hend]; omega)
      (by rw [zero_add]; exact le_npg_mul) (by simp only [npg, PGSIZE]; omega) (fun _ => by omega) (fun s' => h0 ..)
      fun s' hs' hpte hfile hb => ?_)
    simp only [Bool.not_true, Bool.false_eq_true, if_false]
    rw [add_zero] at hb
    have hkeep : Keeps r (npg sz) s₁.mem s'.mem := by
      refine ⟨fun w hw => hpte w (lt_of_lt_of_le hw hg.le), fun va hva' => ?_⟩
      rw [hb va (lt_of_lt_of_le hva' (Nat.mul_le_mul_right _ hg.le)), if_neg (by omega)]
    refine h1 node₁ L₁ s' hs' hg.le ((hg.keeps h).trans hkeep) fun hsmall => ?_
    have hoff : 0 < filesz → off % 2 ^ 32 = off := fun hf => Nat.mod_eq_of_lt (hsmall hf)
    refine hg.loaded hva (Nat.le_of_not_lt hfits) hpte (fun hf => ?_) fun va hva' => ?_
    · dsimp only at hf ⊢
      rw [← hoff hf]
      exact hfile (by simp only [npg, PGSIZE]; omega)
    · rw [hb va hva']
      by_cases hin : v * PGSIZE ≤ va ∧ va < v * PGSIZE + filesz
      · rw [if_pos hin, if_pos hin, hoff (by omega)]
      · rw [if_neg hin, if_neg hin]
  · rw [if_pos rfl]
    exact h0 ..

theorem wpe_loadSegments {Q : Bool × Nat → Kmem → Prop} (h : UserSpace K r node L s (· < npg sz))
    (hlen : data.length < 2 ^ 32) (hoff : off + n * proghdrSize ≤ data.length)
    (hasc : Ascending (loadable (proghdrs data n off)))
    (hlow : ∀ ph ∈ loadable (proghdrs data n off), PGROUNDUP sz ≤ ph.vaddr) (h0 : ∀ sz' s', Q (false, sz') s')
    (h1 : ∀ sz' node' L' s', UserSpace K r node' L' s' (· < npg sz') → npg sz ≤ npg sz' → Keeps r (npg sz) s.mem s'.mem →
      (∀ ph ∈ loadable (proghdrs data n off), npg (ph.vaddr + ph.memsz) ≤ npg sz' ∧
        ((0 < ph.filesz → ph.off < 2 ^ 32) → Loaded s'.mem r data ph)) → Q (true, sz') s') :
    wpe (loadSegments K r data n off sz) Q (fun _ => True) s := by
  induction n generalizing off sz s node L with
  | zero => exact h1 sz node L s h (le_rfl) .refl fun ph hph => absurd hph (by simp [proghdrs, loadable])
  | succ n ih =>
    have hsize : proghdrSize = 56 := rfl
    rw [Nat.succ_mul] at hoff
    have hfit : off + proghdrSize ≤ data.length := by omega
    obtain ⟨hread, hread'⟩ := readi_eq hfit hlen
    rw [loadSegments]
    dsimp only
    rw [if_neg (not_not.mpr hread'), hread, Nat.mod_eq_of_lt (show off + proghdrSize < 2 ^ 32 by omega)]
    rw [proghdrs] at hasc hlow h1
    obtain ⟨h64, h64'⟩ := Proghdr.parse_lt ((data.drop off).take proghdrSize)
    generalize Proghdr.parse ((data.drop off).take proghdrSize) = ph at *
    by_cases hload : ph.type = ELF_PROG_LOAD
    · rw [loadable_cons_pos hload] at hasc hlow h1
      obtain ⟨hhead, hasc⟩ := List.pairwise_cons.mp hasc
      rw [if_neg (not_not.mpr hload)]
      refine wpe_loadSegment _ (loadSegments K r data n (off + proghdrSize)) h hlen (hlow _ List.mem_cons_self) h64 h64' h0
        fun node₁ L₁ s₁ hs1 hle hk hl => ?_
      refine ih hs1 (by omega) hasc hhead fun sz' node' L' s' hs' hle' hk' hall => ?_
      refine h1 sz' node' L' s' hs' (hle.trans hle') (hk.trans (hk'.mono hle)) fun ph hph => ?_
      rcases List.mem_cons.mp hph with rfl | hph
      · exact ⟨hle', fun hsmall => (hl hsmall).keeps hk' (le_rfl)⟩
      · exact hall ph hph
    · rw [loadable_cons_neg hload] at hasc hlow h1
      rw [if_pos hload]
      exact ih h (by omega) hasc hlow h1

/-! ### The stack comes after the segments -/

/-- The pages from `n` on are not those below. -/
structure Above (m : Bytes) (r n : Nat) (node : Nat → Nat → Option Nat) : Prop where
  le : n ≤ 2 ^ 26
  tree : PageTree m r node
  apart : LeavesApart m node
  alone : ∀ v < n, ∀ v', n ≤ v' → leafOf m node v' &&& PTE_V ≠ 0 → PTE2PA (leafOf m node v) ≠ PTE2PA (leafOf m node v')

theorem Above.write (h : Above m r n node) (hn : n ≤ v) (hv : leafOf m node v &&& PTE_V ≠ 0)
    (hm : Outside m m' (PTE2PA (leafOf m node v))) : Above m' r n node ∧ Keeps r n m m' := by
  have hle := h.le
  have hsame : ∀ {l x q}, node l x = some q → SamePage m m' q := fun hq =>
    hm.samePage PTE2PA_aligned (h.tree.aligned hq) fun he => h.apart v hv _ _ (he ▸ hq)
  have hleaf : leafOf m' node = leafOf m node := funext fun _ => leafOf_of_same fun _ _ => hsame
  have htree : PageTree m' r node := h.tree.of_same fun _ _ _ => hsame
  exact ⟨⟨hle, htree, by rw [LeavesApart, hleaf]; exact h.apart, by rw [hleaf]; exact h.alone⟩,
    .of_pages h.tree htree hle (fun _ _ => by rw [hleaf]) fun w hw =>
      hm.samePage PTE2PA_aligned PTE2PA_aligned (h.alone w hw v hn hv)⟩

theorem wpe_copyout_above {src : List UInt8} (h : Above s.mem r n node) (hva : n * PGSIZE ≤ va) :
    wpe (copyout r va src) (fun _ s' => Above s'.mem r n node ∧ Keeps r n s.mem s'.mem) (fun _ => True) s := by
  induction hl : src.length using Nat.strong_induction_on generalizing src va s with
  | _ len ih =>
    have hv : n ≤ va / PGSIZE := (Nat.le_div_iff_mul_le (by decide)).mpr hva
    have hsub : va - PGROUNDDOWN va = va % PGSIZE := sub_PGROUNDDOWN
    have hmod := Nat.mod_lt va (show PGSIZE > 0 by decide)
    rw [copyout]
    split
    · exact ⟨h, .refl⟩
    rename_i hlen
    refine wpe_bind (wp.wpe (wp_walkaddr_find.mpr ?_))
    dsimp only
    rw [h.tree.walkaddrOf_eq, PGROUNDDOWN_div]
    by_cases hu : PGROUNDDOWN va < MAXVA ∧ pteOf s.mem r (va / PGSIZE) &&& PTE_V ≠ 0 ∧ pteOf s.mem r (va / PGSIZE) &&& PTE_U ≠ 0
    · rw [if_pos hu]
      have hpte := h.tree.pteOf_eq (page_lt_of_lt (PGROUNDDOWN_lt.mp hu.1))
      rw [hpte] at hu ⊢
      split
      · exact ⟨h, .refl⟩
      · refine wpe_bind (wp.wpe (wp_modify.mpr ?_))
        generalize hm' : s.mem.copy _ _ 0 _ = m'
        have hout : Outside s.mem m' (PTE2PA (leafOf s.mem node (va / PGSIZE))) := by
          rw [← hm']
          exact outside_copy (Nat.le_add_right ..) (by omega)
        obtain ⟨h', hk⟩ := h.write hv hu.2.1 hout
        refine (ih _ ?_ h' ?_ rfl).mono (fun _ s' hs' => ⟨hs'.1, hk.trans hs'.2⟩) fun _ => id
        · rw [List.length_drop]
          omega
        · exact (Nat.mul_le_mul_right _ hv).trans (Nat.le_add_right ..)
    · rw [if_neg hu, if_pos rfl]
      exact ⟨h, .refl⟩

theorem wpe_pushArgs_above {base sp : Nat} {ustack : List Nat} (h : Above s.mem r n node) (hb : n * PGSIZE ≤ base) :
    wpe (pushArgs r base argv sp ustack) (fun _ s' => Above s'.mem r n node ∧ Keeps r n s.mem s'.mem) (fun _ => True) s := by
  induction argv generalizing s sp ustack with
  | nil => exact ⟨h, .refl⟩
  | cons a argv ih =>
    rw [pushArgs]
    split
    · exact ⟨h, .refl⟩
    refine wpe_bind (wp.wpe (wp_strlen fun len => ?_))
    dsimp only
    split
    · exact ⟨h, .refl⟩
    rename_i hsp
    refine wpe_bind (wp.wpe (wp_get.mpr (wpe_bind ((wpe_copyout_above h (by omega)).mono (fun b s' hs' => ?_) fun _ => id))))
    cases b with
    | false => exact hs'
    | true => exact (ih hs'.1).mono (fun _ s'' h'' => ⟨h''.1, hs'.2.trans h''.2⟩) fun _ => id

theorem wpe_buildStack_above {base : Nat} (h : Above s.mem r n node) (hb : n * PGSIZE ≤ base) :
    wpe (buildStack r base sz argv) (fun _ s' => Keeps r n s.mem s'.mem) (fun _ => True) s := by
  rw [buildStack]
  refine (wpe_pushArgs_above h hb).bind fun o s' hs' => ?_
  cases o with
  | none => exact hs'.2
  | some x =>
    dsimp only
    split
    · exact hs'.2
    rename_i hsp
    refine (wpe_copyout_above hs'.1 (by omega)).bind fun b s'' h'' => ?_
    cases b <;> exact hs'.2.trans h''.2

theorem PTE2PA_clear {e : Nat} : PTE2PA (e - (e &&& PTE_U)) = PTE2PA e := by
  have hmod : e &&& 0x3FF = e % 1024 := Nat.and_two_pow_sub_one_eq_mod e 10
  have hle : e &&& PTE_U ≤ e % 1024 := by
    rw [← hmod, show PTE_U = 0x3FF &&& PTE_U from rfl, ← Nat.and_assoc]
    exact Nat.and_le_left
  rw [PTE2PA, PTE2PA, Nat.shiftRight_eq_div_pow, Nat.shiftRight_eq_div_pow, show (e - (e &&& PTE_U)) / 2 ^ 10 = e / 2 ^ 10 by omega]

theorem wp_uvmclear_above {Q : Unit → Kmem → Prop} (h : UserSpace K r node L s (· < np)) (hn : n < np)
    (hQ : ∀ s', Above s'.mem r n node → Keeps r n s.mem s'.mem → Q () s') : wp (uvmclear r (n * PGSIZE)) Q s := by
  have hr := (h.user hn).2
  have htree := h.sound.pool.tree
  have hlt := h.page_lt hn
  obtain ⟨q, hq⟩ := leafOf_ne_zero (valid_ne_zero hr.valid)
  have hq0 : q + 8 * (n % 512) ≠ 0 := by have := htree.ne_zero hq; omega
  rw [uvmclear, wp_bind, wp_walk_leaf htree hlt hq]
  simp only [if_neg hq0, wp_bind, load64, wp_get, wp_pure, store64, wp_modify, ← leafOf_of_some hq]
  have hw : leafOf s.mem node n - (leafOf s.mem node n &&& PTE_U) < 256 ^ 8 := by
    rw [leafOf_of_some hq]
    exact lt_of_le_of_lt (Nat.sub_le ..) (Bytes.load_lt ..)
  have htree' := htree.setLeaf (w := leafOf s.mem node n - (leafOf s.mem node n &&& PTE_U)) hq
  have hleaf : ∀ v', leafOf (s.mem.store (q + 8 * (n % 512)) 8 (leafOf s.mem node n - (leafOf s.mem node n &&& PTE_U))) node
      v' = if v' = n then _ else leafOf s.mem node v' := fun _ => htree.leafOf_setLeaf hq hw
  generalize hm' : s.mem.store _ 8 _ = m' at htree' hleaf
  -- no entry points to another page than before
  have hpa : ∀ v', PTE2PA (leafOf m' node v') = PTE2PA (leafOf s.mem node v') := fun v' => by
    rw [hleaf]
    split
    · rename_i he
      rw [he, PTE2PA_clear]
    · rfl
  have hvalid : ∀ v', leafOf m' node v' &&& PTE_V ≠ 0 → leafOf s.mem node v' &&& PTE_V ≠ 0 := fun v' hv => by
    by_cases he : v' = n
    · rw [he]
      exact hr.valid
    · rwa [hleaf, if_neg he] at hv
  have hout : Outside s.mem m' q := hm' ▸ outside_entry
  refine hQ _ ⟨by omega, htree', fun v hv => ?_, fun v hv v' hv' hvalid' => ?_⟩
    (.of_pages htree htree' (by omega) (fun v hv => ?_) fun v hv => ?_)
  · rw [hpa]
    exact (h.sound.leaves v (hvalid v hv)).1
  · rw [hpa, hpa]
    intro he
    have := h.alone (show v < np by omega) (hvalid v' hvalid') he
    omega
  · rw [hleaf, if_neg (by omega)]
  · exact hout.samePage (htree.aligned hq) PTE2PA_aligned fun he => h.page_apart (show v < np by omega) _ _ (he ▸ hq)

/-! ### `exec` -/

theorem wpe_buildImage_loaded {g : Ghost Tag} {t : Nat} {tag : Tag} (h : PInv K s g) (ht : g.own t = some (.held tag))
    (hlen : data.length < 2 ^ 32) (hph : phoff data + phnum data * proghdrSize ≤ data.length)
    (hasc : Ascending (segments data)) :
    wpe (buildImage K t data argv) (fun o s' => ∀ im, o = some im → ∀ ph ∈ segments data,
      npg (ph.vaddr + ph.memsz) ≤ npg im.sz ∧
      ((0 < ph.filesz → ph.off < 2 ^ 32) → Loaded s'.mem im.pagetable data ph)) (fun _ => True) s := by
  have hnone : ∀ {P : Image → Prop} (im : Image), none = some im → P im := fun im he => by cases he
  have hbad : ∀ {P : Kmem → Image → Prop} {x : VM Unit} {s' : Kmem}, wpe (do x; return none)
      (fun o s' => ∀ im, o = some im → P s' im) (fun _ => True) s' := wpe_bind (wpe_any fun _ _ => hnone)
  rw [buildImage]
  dsimp only
  split
  · exact hnone
  rename_i helf
  split
  · exact hnone
  have hread : readi data 0 elfhdrSize = data.take elfhdrSize := by
    rw [readi] at helf ⊢
    split
    · rename_i hno
      rw [if_pos hno] at helf
      exact absurd (by decide) helf
    · rfl
  rw [hread]
  refine wpe_bind (wp.wpe (wp_procPagetable h (h.lt ht) tag (fun s₁ g₁ _ _ _ => ?_) fun r s₁ g₁ h₁ hr hF hS _ => ?_))
  · rw [if_pos rfl]
    exact hnone
  rw [if_neg (h.ne_zero hr)]
  obtain ⟨L₁, hs1⟩ : ∃ L₁, UserSpace K r (nodeOf s₁.mem r) L₁ s₁ (· < npg 0) := h₁.userSpace hS ((hF.held id).mpr ht)
  have hphoff : field (data.take elfhdrSize) 32 8 % 2 ^ 32 = phoff data := Nat.mod_eq_of_lt (by
    have : phoff data ≤ data.length := (Nat.le_add_right ..).trans hph
    exact lt_of_le_of_lt this hlen)
  rw [hphoff]
  refine wpe_bind (wpe_loadSegments hs1 hlen hph hasc (fun _ _ => Nat.zero_le _) (fun sz s₂ => hbad)
    fun sz node₂ L₂ s₂ hs2 _ _ hall => ?_)
  simp only [Bool.not_true, Bool.false_eq_true, if_false]
  have hup : npg (PGROUNDUP sz) = npg sz := by rw [PGROUNDUP_eq, npg_mul]
  have hnpg : npg (PGROUNDUP sz + 2 * PGSIZE) = npg sz + 2 := by rw [PGROUNDUP_eq, ← add_mul, npg_mul]
  rw [← hup] at hs2
  refine wpe_bind (wp.wpe (wp_uvmalloc_grew (by decide) (by decide) hs2 (Nat.le_add_right ..) (fun node₃ L₃ s₃ hg => ?_)
    fun node₃ L₃ s₃ hg => ?_))
  · have hk3 := hg.keeps hs2
    have hs3 := hg.space
    rw [hup] at hk3
    rw [hnpg] at hs3
    rw [if_neg (by simp only [PGSIZE]; omega), Nat.add_sub_cancel, PGROUNDUP_eq]
    refine wpe_bind (wp.wpe (wp_uvmclear_above hs3 (by omega) fun s₄ ha hk4 => ?_))
    refine (wpe_buildStack_above ha ?_).bind fun o s₅ hk5 => ?_
    · simp only [PGSIZE]
      omega
    · cases o with
      | none => exact hbad
      | some x =>
        intro im he ph hph'
        cases he
        obtain ⟨hle, hl⟩ := hall ph hph'
        refine ⟨?_, fun hsmall => (hl hsmall).keeps ((hk3.trans hk4).trans hk5) hle⟩
        show npg (ph.vaddr + ph.memsz) ≤ npg (npg sz * PGSIZE + 2 * PGSIZE)
        rw [← PGROUNDUP_eq, hnpg]
        omega
  · rw [if_pos rfl]
    exact hbad

theorem outside_store64 {a w : Nat} (hoff : off + 8 ≤ PGSIZE) : Outside m (m.store (a + off) 8 w) a :=
  outside_store (Nat.le_add_right ..) (by omega)

theorem Space.freeze {g : Ghost Tag} {t : Nat} {tag : Tag} (h : Space K g r n t) : Space K (g.freeze tag (· = r) m) r n t :=
  ⟨⟨freeze_own_node.mpr ⟨rfl, h.table.root⟩, fun v => (exists_congr fun _ =>
    (freeze_own_node (R := (· = r))).trans (and_iff_right rfl)).trans (h.table.leaves v), fun v hv => (if_pos rfl).trans (h.table.ext v hv)⟩, fun v => (if_pos rfl).trans (h.ext v)⟩

/-- `exec` has loaded what the headers say exactly if the segments that are in the file have offsets below 2³². -/
theorem exec_loads_iff {K : Layout} {s : Kern} {i : Fin NPROC} {g : Ghost Tag} (hk : PInv K s.kmem g)
    (hm : HasMem K g i (s.proc i)) (hu : ∀ r v, ¬ g.usr r v) {data : List UInt8} (path : List UInt8) (argv : List Nat)
    (hlen : data.length < 2 ^ 32) (hph : phoff data + phnum data * proghdrSize ≤ data.length)
    (hasc : Ascending (segments data)) : wp (exec K i path (some data) argv) (fun ret s' => ret ≠ none →
      ((∀ ph ∈ segments data, Loaded s'.kmem.mem (s'.proc i).pagetable data ph) ↔
        ∀ ph ∈ segments data, 0 < ph.filesz → ph.off < 2 ^ 32)) s := by
  rw [exec, wp_bind, wp_get, wp_bind, wp_vm]
  -- two views of one run: who owns the pages, and what is in them
  have hown : wp (buildImage K (s.proc i).trapframe data argv) (fun o k => ∀ im, o = some im → ∃ g', PInv K k g' ∧
      g.own im.pagetable = some .free ∧ Frame (· = im.pagetable) (fun _ => False) g g' ∧
      Space K g' im.pagetable (npg im.sz) (s.proc i).trapframe) s.kmem :=
    wp_buildImage hk (hk.lt hm.tf) .tmp hu (fun _ _ _ _ _ _ he => by cases he)
      fun im k g' h' hr hF hS _ _ he => by cases he; exact ⟨g', h', hr, hF, hS⟩
  obtain ⟨o, k₁, hrun, hown⟩ := hown
  have hload := wpe.of_eq (wpe_buildImage_loaded hk hm.tf hlen hph hasc) hrun
  refine ⟨o, k₁, hrun, ?_⟩
  cases o with
  | none => exact wp_pure.mpr fun h => absurd rfl h
  | some im =>
    obtain ⟨g₁, hk1, hr, hF, hS⟩ := hown im rfl
    have hne : (s.proc i).pagetable ≠ im.pagetable := fun e => by cases hr.symm.trans (e ▸ hm.space.table.root)
    have hm1 := hm.of_frame hF hne id
    have hscr : Scratch g₁ (s.proc i).trapframe := .inl ⟨⟨_, hm1.tf⟩, hm1.pin⟩
    have hk2 := ((hk1.store64 tfA1 im.sp hscr (by decide)).store64 tfEpc im.entry hscr (by decide)).store64 tfSp im.sp
      hscr (by decide)
    simp only [wp_bind, wp_vm, wp_modifyProc, store64, wp_modify]
    refine wp_procFreepagetable (hk2.freeze .tmp (· = (s.proc i).pagetable)) hm1.space.freeze .tmp
      fun k₃ g₃ hk3 hF3 _ _ => wp_pure.mpr fun _ => ?_
    -- the registers go to the trapframe, and the pages of the old image are freed
    have hkeep : Keeps im.pagetable (npg im.sz) k₁.mem k₃.mem := hk1.keeps hS fun {p l x} hp => by
      have hout : Outside k₁.mem (((k₁.mem.store ((s.proc i).trapframe + tfA1) 8 im.sp).store
          ((s.proc i).trapframe + tfEpc) 8 im.entry).store ((s.proc i).trapframe + tfSp) 8 im.sp) (s.proc i).trapframe :=
        ((outside_store64 (by decide)).trans (outside_store64 (by decide))).trans (outside_store64 (by decide))
      refine (hk1.samePage hout (by rw [hm1.tf]; simp) hp ?_).trans (samePage_of_frame hk3 hF3 hp (by simp) ?_)
      · rintro rfl
        cases hp.symm.trans hm1.tf
      · rintro r' l' x' he hr'
        exact hne (hr'.symm.trans (Owner.node.inj he).1.symm)
    simp only [Function.update_self]
    refine ⟨fun h ph hph' hpos => ?_, fun hsmall ph hph' => ?_⟩
    · have := (h ph hph').inside 0 hpos
      omega
    · obtain ⟨hle, hl⟩ := hload im rfl ph hph'
      exact (hl (hsmall ph hph')).keeps hkeep hle

def farFile : List UInt8 := oneSegment (2 ^ 32)

theorem segments_farFile : segments farFile = [⟨ELF_PROG_LOAD, 5, 2 ^ 32, 0, 1, 1⟩] := by decide +kernel

theorem segments_oneSegment : segments (oneSegment 0) = [⟨ELF_PROG_LOAD, 5, 0, 0, 1, 1⟩] := by decide +kernel

/-- The first process can run the file. -/
def runsFile (data : List UInt8) (s : Kern) : Bool :=
  decide ((s.proc firstProc).state = .runnable) &&
    match buildImage execLayout (s.proc firstProc).trapframe data [] s.kmem with
    | .ok (some _, _) => true
    | _ => false

theorem exec_runsFile {s : Kern} (h : Reachable execLayout s) (hs : runsFile data s = true) :
    (s.proc firstProc).state = .runnable ∧ wp (exec execLayout firstProc [] (some data) []) (fun ret _ => ret ≠ none) s := by
  rw [runsFile, Bool.and_eq_true, decide_eq_true_eq] at hs
  obtain ⟨hrun, hbuild⟩ := hs
  split at hbuild
  · rename_i hb
    obtain ⟨g, hg⟩ := (Inv.reach h).sys
    have hsafe : wp (exec execLayout firstProc [] (some data) []) (fun _ _ => True) s :=
      wp_exec hg.pages (hg.mem (Inv.used hrun)) hg.usr (fun _ _ _ _ _ => trivial) fun _ _ _ _ _ _ _ _ _ _ _ => trivial
    obtain ⟨ret, s', hex, -⟩ := hsafe
    have hret := (wpe_exec_none (R := fun _ _ => False) (fun h => by cases h) fun data he => by
      cases he
      exact ⟨_, _, hb, fun h => by cases h⟩).of_eq hex
    refine ⟨hrun, ret, s', hex, fun he => ?_⟩
    obtain ⟨_, -, hF⟩ := hret he
    exact hF
  · cases hbuild

/-- `exec` accepts the file. -/
theorem exec_farFile : ∃ s i, Reachable execLayout s ∧ (s.proc i).state = .runnable ∧ farFile.length < 2 ^ 32 ∧
    phoff farFile + phnum farFile * proghdrSize ≤ farFile.length ∧ Ascending (segments farFile) ∧
    wp (exec execLayout i [] (some farFile) []) (fun ret s' => ret ≠ none ∧
      ¬ ∀ ph ∈ segments farFile, Loaded s'.kmem.mem (s'.proc i).pagetable farFile ph) s := by
  obtain ⟨s, h, hs⟩ := exists_booted (K := execLayout) (f := runsFile farFile) (by decide +kernel)
  obtain ⟨hrun, ret, s', hex, hret⟩ := exec_runsFile h hs
  refine ⟨s, firstProc, h, hrun, by decide +kernel, by decide +kernel, ?_, ret, s', hex, hret, fun hall => ?_⟩
  · rw [segments_farFile]
    exact List.pairwise_singleton ..
  · rw [segments_farFile] at hall
    exact absurd ((hall _ List.mem_cons_self).inside 0 (by decide)) (by decide +kernel)

/-- The first process runs the file with its segment at offset 0. -/
theorem exec_loads_iff_small : ∃ s i, Reachable execLayout s ∧
    wp (exec execLayout i [] (some (oneSegment 0)) []) (fun ret s' => ret ≠ none ∧
      ∀ ph ∈ segments (oneSegment 0), Loaded s'.kmem.mem (s'.proc i).pagetable (oneSegment 0) ph) s := by
  obtain ⟨s, h, hs⟩ := exists_booted (K := execLayout) (f := runsFile (oneSegment 0)) (by decide +kernel)
  obtain ⟨hrun, ret, s', hex, hret⟩ := exec_runsFile h hs
  obtain ⟨g, hg⟩ := (Inv.reach h).sys
  have hasc : Ascending (segments (oneSegment 0)) := by
    rw [segments_oneSegment]
    exact List.pairwise_singleton ..
  obtain ⟨ret', s'', hex', hiff⟩ := exec_loads_iff hg.pages (hg.mem (Inv.used hrun)) hg.usr [] [] (by decide +kernel)
    (by decide +kernel) hasc
  obtain ⟨rfl, rfl⟩ := Prod.mk.inj (Except.ok.inj (hex'.symm.trans hex))
  refine ⟨s, firstProc, h, ret', s'', hex, hret, (hiff hret).mpr fun ph hph _ => ?_⟩
  rw [segments_oneSegment, List.mem_singleton] at hph
  rw [hph]
  decide

end Xv6
