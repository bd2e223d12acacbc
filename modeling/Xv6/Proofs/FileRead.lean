import Xv6.FileRead
import Xv6.Proofs.FsFault
import Xv6.Proofs.StreamRead

/-!
# `fileread` transfers no more than asked for

For a pipe or the console this is what the calls of `Xv6.Proofs.StreamRead` do. For an inode `readi` takes a negative `n`
as a large one, and reads on to the end of the file.
-/

namespace Xv6

open Prog

variable {m : UserMem} {a n : Nat}

theorem UserMem.isSome_of_lt_room {j : Nat} (h : j < m.room a n) : (m (a + j)).isSome := by
  induction n generalizing a j with
  | zero => exact absurd h (Nat.not_lt_zero j)
  | succ n ih =>
    rw [room] at h
    split at h
    · rename_i ha
      cases j with
      | zero => exact ha
      | succ j =>
        rw [show a + (j + 1) = a + 1 + j by omega]
        exact ih (Nat.lt_of_succ_lt_succ h)
    · exact absurd h (Nat.not_lt_zero j)

theorem UserMem.room_none (h : m.room a n < n) : m (a + m.room a n) = none := by
  induction n generalizing a with
  | zero => exact absurd h (Nat.not_lt_zero _)
  | succ n ih =>
    rw [room] at h ⊢
    split
    · rename_i ha
      rw [if_pos ha] at h
      rw [show a + (m.room (a + 1) n + 1) = a + 1 + m.room (a + 1) n by omega]
      exact ih (Nat.lt_of_succ_lt_succ h)
    · rename_i ha
      simpa using ha

theorem UserMem.copyout_of_room {bs : List UInt8} (h : bs.length ≤ m.room a n) : (m.copyout a bs).2 = m.write a bs := by
  rw [copyout_of (Nat.le_refl bs.length) (fun j hj => isSome_of_lt_room (lt_of_lt_of_le hj h)) fun hlt => absurd hlt (lt_irrefl _),
    List.take_length]

namespace Fs

variable {sb : Super} {s : Fs} {ip : Inode} {off room : Nat}

theorem wp_readLoop_short {turns tot : Nat} {out : List UInt8} {Q : Int × List UInt8 × Inode → Fs → Prop}
    (hturns : n ≤ tot + turns) (htot : tot ≤ room) (hroom : room < n)
    (hmap : ∀ pos, off ≤ pos → pos < off + (n - tot) → blockOf s.data ip (pos / BSIZE) ≠ 0)
    (hQ : Q (-1, out ++ bytes s.data ip off (room - tot), ip) s) : wp (readLoop sb (.user room) n turns ip tot off out) Q s := by
  induction turns generalizing tot off out with
  | zero => omega
  | succ turns ih =>
    rw [readLoop, if_pos (by omega), wp_bind]
    have hne := hmap off (le_rfl) (by omega)
    refine wp_bmap_of_ne hne ?_
    dsimp only
    rw [if_neg hne]
    generalize hm : min (n - tot) (BSIZE - off % BSIZE) = m
    have hm2 : m ≤ BSIZE - off % BSIZE := by omega
    have hm0 : 0 < m := by
      simp only [BSIZE] at hm
      omega
    by_cases hfit : tot + m ≤ room
    · simp only [eitherCopyout, if_pos hfit, wp_bind, wp_get, if_true, slice_eq_bytes hm2]
      refine ih (by omega) hfit (fun pos h1 h2 => hmap pos (by omega) (by omega)) ?_
      rw [List.append_assoc, ← bytes_add, show m + (room - (tot + m)) = room - tot by omega]
      exact hQ
    · simp only [eitherCopyout, if_neg hfit, wp_bind, wp_get, Bool.false_eq_true, if_false, wp_pure]
      rw [slice_eq_bytes (by omega)]
      exact hQ

theorem wp_readi_user {Q : Int × List UInt8 × Inode → Fs → Prop} (hhole : NoHole s.data ip) (hoff : off ≤ ip.size)
    (hn : off + n < 2 ^ 32)
    (hQ : Q (if min n (ip.size - off) ≤ room then (min n (ip.size - off) : Nat) else -1,
      bytes s.data ip off (min room (min n (ip.size - off))), ip) s) :
    wp (readi sb ip (.user room) off n) Q s := by
  by_cases hfit : min n (ip.size - off) ≤ room
  · rw [if_pos hfit, Nat.min_eq_right hfit] at hQ
    exact wp_readi hhole hoff hn hfit hQ
  · rw [if_neg hfit, Nat.min_eq_left (by omega)] at hQ
    rw [readi, if_neg (by rw [Nat.mod_eq_of_lt hn]; omega)]
    have hmin : (if off + n > ip.size then ip.size - off else n) = min n (ip.size - off) := by
      split <;> omega
    dsimp only
    rw [hmin]
    refine wp_readLoop_short (by omega) (Nat.zero_le _) (by omega) (fun pos h1 h2 => hhole pos (by omega)) ?_
    simpa using hQ

theorem length_bytes (data : Nat → Bytes) : (bytes data ip off n).length = n := by
  rw [bytes, List.length_map, List.length_range]

end Fs

namespace FileReader

open Fs

variable {sb : Super} {ip : Inode} {w : FileReader} {addr : Nat} {k : CInt}

def wanted (ip : Inode) (off n : Nat) : Nat := if off ≤ ip.size ∧ off + n < 2 ^ 32 then min n (ip.size - off) else 0

theorem wp_advance {Q : Int → FileReader → Prop} {c : Nat} (hlt : w.off + c < 2 ^ 32) (hQ : Q c { w with off := w.off + c }) :
    wp (do
      if (c : Int) > 0 then
        modify fun s : FileReader => { s with off := (s.off + (c : Int).toNat) % 2 ^ 32 }
      return (c : Int) : Prog FsPanic FileReader Int) Q w := by
  split
  · rw [wp_bind, wp_modify, wp_pure, Int.toNat_natCast, Nat.mod_eq_of_lt hlt]
    exact hQ
  · obtain rfl : c = 0 := by omega
    rw [wp_pure]
    exact hQ

theorem wp_readInode {Q : Int → FileReader → Prop} (hhole : NoHole w.fs.data ip) (hoff : w.off < 2 ^ 32)
    (hQ : ∀ c room, c = wanted ip w.off k.toNat → room = w.mem.room addr k.toNat →
      Q (if c ≤ room then (c : Nat) else -1)
        ⟨w.fs, if c ≤ room then w.off + c else w.off, w.mem.write addr (bytes w.fs.data ip w.off (min room c))⟩) :
    wp (readInode sb ip addr k) Q w := by
  have hQ := hQ _ _ rfl rfl
  rw [readInode]
  simp only [wp_bind, wp_get, wp_zoom, wp_modify]
  by_cases hc : w.off ≤ ip.size ∧ w.off + k.toNat < 2 ^ 32
  · rw [wanted, if_pos hc] at hQ
    refine wp_readi_user hhole hc.1 hc.2 ?_
    dsimp only
    rw [UserMem.copyout_of_room (by rw [length_bytes]; exact Nat.min_le_left ..)]
    by_cases hfit : min k.toNat (ip.size - w.off) ≤ w.mem.room addr k.toNat
    · rw [if_pos hfit, if_pos hfit] at hQ
      rw [if_pos hfit]
      exact wp_advance (by dsimp only; omega) hQ
    · rw [if_neg hfit, if_neg hfit] at hQ
      rw [if_neg hfit, if_neg (by decide), wp_pure]
      exact hQ
  · rw [wanted, if_neg hc, if_pos (Nat.zero_le _), if_pos (Nat.zero_le _), Nat.min_zero] at hQ
    have hbad : w.off > ip.size ∨ (w.off + k.toNat) % 2 ^ 32 < w.off := by
      have := k.isLt
      omega
    rw [readi, if_pos hbad, wp_pure]
    exact wp_advance (c := 0) hoff (by simpa [bytes, UserMem.copyout] using hQ)

/-- No more is transferred than asked for, and the offset of an inode goes on by what is. -/
structure Within (kind : FileKind) (addr : Nat) (n : CInt) (w : FileReader) (r : Int) (w' : FileReader) : Prop where
  le : r ≤ max n.toInt 0
  mem : ∀ a, ¬ (addr ≤ a ∧ (a : Int) < addr + max n.toInt 0) → w'.mem a = w.mem a
  off : kind = .inode → (w'.off : Int) = w.off + max r 0

/-- `n` is not negative, or there is nothing to read, or as an unsigned number it is too large for the offset, or an address
below the end of the file is not mapped and up to it the memory holds what is in the file. -/
def NoExcess (ip : Inode) (addr : Nat) (n : CInt) (w : FileReader) : Prop :=
  0 ≤ n.toInt ∨ ip.size ≤ w.off ∨ -n.toInt ≤ w.off ∨
    ∃ c, w.off + c < ip.size ∧ w.mem (addr + c) = none ∧ ∀ j < c, w.mem (addr + j) = some (byteAt w.fs.data ip (w.off + j))

theorem toNat_of_nonneg (h : 0 ≤ k.toInt) : (k.toNat : Int) = k.toInt := by
  have := BitVec.toInt_eq_toNat_cond k
  split at this <;> omega

theorem toNat_of_neg (h : k.toInt < 0) : (k.toNat : Int) = k.toInt + 2 ^ 32 ∧ 2 ^ 31 ≤ k.toNat := by
  have := BitVec.toInt_eq_toNat_cond k
  split at this <;> omega

theorem wanted_le (ip : Inode) (off n : Nat) : wanted ip off n ≤ n := by
  rw [wanted]
  split <;> omega

theorem wanted_of_neg (hhole : NoHole w.fs.data ip) (hk : k.toInt < 0) :
    wanted ip w.off k.toNat = if w.off < -k.toInt then ip.size - w.off else 0 := by
  have hsize := hhole.size_le
  simp only [MAXFILE, NDIRECT, NINDIRECT, BSIZE] at hsize
  have := toNat_of_neg hk
  rw [wanted]
  split <;> split <;> omega

theorem write_bytes_eq_iff {c : Nat} : (∀ a, m.write addr (bytes w.fs.data ip w.off c) a = m a) ↔
    ∀ j < c, m (addr + j) = some (byteAt w.fs.data ip (w.off + j)) := by
  have hget : ∀ j < c, (bytes w.fs.data ip w.off c)[j]? = some (byteAt w.fs.data ip (w.off + j)) := by
    intro j hj
    rw [bytes, List.getElem?_map, List.getElem?_range hj, Option.map_some]
  refine ⟨fun h j hj => ?_, fun h a => ?_⟩
  · rw [← h, UserMem.write, length_bytes, if_pos (by omega), Nat.add_sub_cancel_left, hget j hj]
  · rw [UserMem.write, length_bytes]
    split
    · rename_i hin
      obtain ⟨j, rfl⟩ := Nat.exists_eq_add_of_le hin.1
      rw [Nat.add_sub_cancel_left, hget j (by omega), h j (by omega)]
    · rfl

theorem noExcess_iff_of_room (hk : k.toInt < 0) {c : Nat} (hc : c = if w.off < -k.toInt then ip.size - w.off else 0)
    (hfit : c ≤ w.mem.room addr k.toNat) : NoExcess ip addr k w ↔ c = 0 := by
  refine ⟨fun h => ?_, fun h => ?_⟩
  · by_contra h0
    split at hc
    · rcases h with h | h | h | ⟨d, hd, hnone, -⟩
      · omega
      · omega
      · omega
      · have hsome : (w.mem (addr + d)).isSome := UserMem.isSome_of_lt_room (n := k.toNat) (by omega)
        rw [hnone] at hsome
        exact Bool.false_ne_true hsome
    · exact h0 hc
  · split at hc
    · exact .inr (.inl (by omega))
    · exact .inr (.inr (.inl (by omega)))

theorem noExcess_iff_of_short (hk : k.toInt < 0) {c room : Nat} (hc : c = if w.off < -k.toInt then ip.size - w.off else 0)
    (hroom : room = w.mem.room addr k.toNat) (hcn : c ≤ k.toNat) (hfit : room < c) :
    NoExcess ip addr k w ↔ ∀ j < room, w.mem (addr + j) = some (byteAt w.fs.data ip (w.off + j)) := by
  have hnone : w.mem (addr + room) = none := hroom ▸ UserMem.room_none (by omega)
  split at hc
  · refine ⟨fun h j hj => ?_, fun h => .inr (.inr (.inr ⟨room, by omega, hnone, h⟩))⟩
    rcases h with h | h | h | ⟨d, hd, hdn, heq⟩
    · omega
    · omega
    · omega
    · refine heq j (lt_of_lt_of_le hj ?_)
      by_contra hlt
      have hsome : (w.mem (addr + d)).isSome := UserMem.isSome_of_lt_room (n := k.toNat) (by omega)
      rw [hdn] at hsome
      exact Bool.false_ne_true hsome
  · omega

theorem within_iff_noExcess (hhole : NoHole w.fs.data ip) {c room : Nat} (hc : c = wanted ip w.off k.toNat)
    (hroom : room = w.mem.room addr k.toNat) :
    Within .inode addr k w (if c ≤ room then (c : Nat) else -1)
      ⟨w.fs, if c ≤ room then w.off + c else w.off, w.mem.write addr (bytes w.fs.data ip w.off (min room c))⟩ ↔
    NoExcess ip addr k w := by
  have hoff : ((if c ≤ room then w.off + c else w.off : Nat) : Int) = w.off + max (if c ≤ room then (c : Int) else -1) 0 := by
    split <;> omega
  have hcn : c ≤ k.toNat := hc ▸ wanted_le ..
  by_cases hk : 0 ≤ k.toInt
  · have := toNat_of_nonneg hk
    refine ⟨fun _ => .inl hk, fun _ => ⟨?_, fun a ha => ?_, fun _ => hoff⟩⟩
    · split <;> omega
    · exact UserMem.write_of_not_mem (by rw [length_bytes]; omega)
  · have hk : k.toInt < 0 := Int.not_le.mp hk
    rw [wanted_of_neg hhole hk] at hc
    by_cases hfit : c ≤ room
    · rw [noExcess_iff_of_room hk hc (hroom ▸ hfit)]
      refine ⟨fun h => ?_, fun h => ⟨?_, fun a _ => ?_, fun _ => hoff⟩⟩
      · have := h.le
        rw [if_pos hfit] at this
        omega
      · rw [if_pos hfit]
        omega
      · dsimp only
        rw [h, Nat.min_zero]
        exact congrFun UserMem.write_nil a
    · rw [noExcess_iff_of_short hk hc hroom hcn (not_le.mp hfit), ← write_bytes_eq_iff, Nat.min_eq_left (by omega)]
      refine ⟨fun h a => h.mem a (by omega), fun h => ⟨?_, fun a _ => h a, fun _ => hoff⟩⟩
      rw [if_neg hfit]
      omega

/-- What a call on a stream returned, and the memory that it left. -/
def Streamed (P : Type) [DecidableEq P] (addr : Nat) (n : CInt) (m : UserMem) (stream : Int × UserMem) : FileKind → Prop
  | .pipe => ∃ (pi : Pipe) (s : StreamSys P Pipe) (c : ReadCall), pi.nread = 0 ∧ pi.nwrite = 0 ∧
    StreamSys.Reachable pipeDevice pi s ∧ (c, stream) ∈ s.returned ∧ c.addr = addr ∧ c.n = n ∧ c.start = m
  | .device _ => ∃ (buf : Nat → UInt8) (s : StreamSys P Cons) (c : ReadCall),
    StreamSys.Reachable consoleDevice ⟨buf, 0, 0, 0⟩ s ∧ (c, stream) ∈ s.returned ∧ c.addr = addr ∧ c.n = n ∧ c.start = m
  | .inode => True

/-- `fileread` of a pipe or a device never transfers more than asked for; of an inode it does not if the call is harmless,
and then only. -/
theorem fileread_within_iff {P : Type} [DecidableEq P] {sb : Super} {ip : Inode} {w : FileReader} {kind : FileKind}
    {addr : Nat} {n : CInt} {stream : Int × UserMem} (hhole : NoHole w.fs.data ip) (hoff : w.off < 2 ^ 32)
    (hstream : Streamed P addr n w.mem stream kind) :
    wp (fileread sb true kind ip stream addr n) (fun r w' =>
      Within kind addr n w r w' ↔ (kind = .inode → NoExcess ip addr n w)) w := by
  rw [fileread.eq_def, if_neg Bool.noConfusion]
  cases kind with
  | pipe =>
    obtain ⟨pi, s, c, hr, hw, h, hmem, rfl, rfl, hstart⟩ := hstream
    obtain ⟨hle, hsame⟩ := ((StreamSys.inv_pipe hr hw h).returned _ hmem).within
    rw [hstart] at hsame
    simp only [wp_bind, wp_modify, wp_pure]
    exact ⟨fun _ h => FileKind.noConfusion h, fun _ => ⟨hle, hsame, fun h => FileKind.noConfusion h⟩⟩
  | device major =>
    obtain ⟨buf, s, c, h, hmem, rfl, rfl, hstart⟩ := hstream
    obtain ⟨hle, hsame⟩ := ((StreamSys.inv_console h).returned _ hmem).within
    rw [hstart] at hsame
    dsimp only
    split
    · rw [wp_pure]
      exact ⟨fun _ h => FileKind.noConfusion h, fun _ => ⟨by omega, fun _ _ => rfl, fun h => FileKind.noConfusion h⟩⟩
    · simp only [wp_bind, wp_modify, wp_pure]
      exact ⟨fun _ h => FileKind.noConfusion h, fun _ => ⟨hle, hsame, fun h => FileKind.noConfusion h⟩⟩
  | inode =>
    refine wp_readInode hhole hoff fun c room hc hroom => ?_
    rw [within_iff_noExcess hhole hc hroom]
    exact ⟨fun h _ => h, fun h => h rfl⟩

/-- An open file of one byte at its start, and a process with one page of memory. -/
def atStart : FileReader := ⟨tornFs, 0, fun a => if a < PGSIZE then some 1 else none⟩

theorem noHole_oneByte : NoHole atStart.fs.data oneByte := by
  intro pos hpos
  obtain rfl : pos = 0 := Nat.lt_one_iff.mp hpos
  decide

/-- A read of -1 bytes returns 1, and the byte of the process is overwritten. -/
theorem fileread_minus_one : Valid tinySuper atStart.fs.data (nodes tinySuper atStart.fs.data 1 oneByte) ∧
    wp (fileread tinySuper true .inode oneByte (0, atStart.mem) 7 (-1)) (fun r w' =>
      r = 1 ∧ atStart.mem 7 = some 1 ∧ w'.mem 7 = some 0 ∧ ¬ Within .inode 7 (-1) atStart r w') atStart := by
  rw [fileread.eq_def, if_neg Bool.noConfusion]
  refine ⟨valid_tornFs, wp_readInode noHole_oneByte (by decide) fun c room hc hroom => ?_⟩
  have hlow : 1 ≤ room := by
    by_contra h0
    obtain rfl : room = 0 := by omega
    have hlt : atStart.mem.room 7 (BitVec.toNat (-1 : CInt)) < BitVec.toNat (-1 : CInt) := by
      rw [← hroom]
      decide
    have hnone := UserMem.room_none hlt
    rw [← hroom] at hnone
    exact absurd hnone (by decide)
  have hc : c = 1 := hc.trans (wanted_of_neg noHole_oneByte (by decide))
  subst hc
  rw [if_pos hlow, if_pos hlow, Nat.min_eq_right hlow]
  exact ⟨rfl, rfl, by decide, fun h => absurd h.le (by decide)⟩

/-- With an address that is not mapped the same read does no harm. -/
theorem fileread_within_iff_unmapped : NoHole atStart.fs.data oneByte ∧
    wp (fileread tinySuper true .inode oneByte (0, atStart.mem) PGSIZE (-1)) (Within .inode PGSIZE (-1) atStart) atStart := by
  have hstream : Streamed Unit PGSIZE (-1) atStart.mem (0, atStart.mem) .inode := trivial
  refine ⟨noHole_oneByte, (fileread_within_iff noHole_oneByte (by decide) hstream).mono fun r w' h => h.mpr fun _ => ?_⟩
  exact .inr (.inr (.inr ⟨0, by decide, rfl, fun j hj => absurd hj (Nat.not_lt_zero j)⟩))

end FileReader

end Xv6
