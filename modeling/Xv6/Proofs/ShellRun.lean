import Xv6.ShellRun
import Xv6.Proofs.ShellGrammar

/-!
# Which redirection counts

`runcmd` opens the files from the outside of the tree to the inside, that is from right to left, so the leftmost one stays.
-/

namespace Xv6

open Function

namespace Shell

variable {I : Type} [DecidableEq I] {ino : Word → I} {w w₁ w' : World I} {rs : List RedirTok} {r : RedirTok} {argv : List Word}
  {i : I} {n : Nat}

def Node.data : Option Node → List UInt8
  | some (.file data) => data
  | _ => []

namespace World

def contents (w : World I) (i : I) : List UInt8 := Node.data (w.node i)

omit [DecidableEq I] in
theorem fdalloc_close (h : ∀ k < n, (w.fd k).isSome) (hn : n < NOFILE) : (w.close n).fdalloc = some n := by
  refine List.find?_range_eq_some.mpr ⟨by simp [close], List.mem_range.mpr hn, fun k hk => ?_⟩
  have hopen : (w.close n).fd k = w.fd k := update_of_ne (ne_of_lt hk) ..
  rw [hopen, ← Option.not_isSome, h k hk]
  rfl

omit [DecidableEq I] in
theorem data_openNode {mode : Nat} {o : Option Node} {x : Node} (h : openNode mode o = some x) :
    Node.data (some x) = if mode &&& O_TRUNC ≠ 0 then [] else Node.data o := by
  rcases o with _ | data | _ | _
  · rw [openNode] at h
    split_ifs at h
    obtain rfl := Option.some.inj h
    exact (ite_self []).symm
  · obtain rfl := Option.some.inj h
    rfl
  · rw [openNode] at h
    split_ifs at h
    obtain rfl := Option.some.inj h
    exact (ite_self []).symm
  · obtain rfl := Option.some.inj h
    exact (ite_self []).symm

/-- The file takes the place of the one that has been closed. -/
theorem openFile_close {mode : Nat} (hopen : (w.close n).openFile i mode = some w₁) (h : ∀ k < n, (w.fd k).isSome) (hlt : n < NOFILE) :
    w₁.fd = update w.fd n (some ⟨i, 0⟩) ∧
      (∀ j data, w.node j = some (.file data) → ∃ data', w₁.node j = some (.file data')) ∧
      ∀ j, w₁.contents j = if mode &&& O_TRUNC ≠ 0 ∧ i = j then [] else w.contents j := by
  obtain ⟨x, hx, hopen⟩ := Option.bind_eq_some_iff.mp hopen
  obtain ⟨k, hk, hopen⟩ := Option.bind_eq_some_iff.mp hopen
  obtain rfl := Option.some.inj ((fdalloc_close h hlt).symm.trans hk)
  obtain rfl := Option.some.inj hopen
  refine ⟨update_idem .., fun j data hw => ?_, fun j => ?_⟩
  · show ∃ data', update w.node i (some x) j = some (.file data')
    rw [update_apply]
    split
    · rename_i hj
      have hx : openNode mode (w.node i) = some x := hx
      rw [← hj, hw] at hx
      exact ⟨_, hx.symm⟩
    · exact ⟨data, hw⟩
  show Node.data (update w.node i (some x) j) = _
  by_cases hj : i = j
  · subst hj
    rw [update_self, data_openNode hx]
    simp only [and_true]
    rfl
  · rw [if_neg fun hc => hj hc.2, update_of_ne (Ne.symm hj)]
    rfl

end World

def RedirTok.target (r : RedirTok) : Nat := if r.dir = .lt then 0 else 1

theorem openFile_redir (h0 : (w.fd 0).isSome) (hopen : (w.close r.redir.fd).openFile (ino r.redir.file) r.redir.mode = some w₁) :
    w₁.fd = update w.fd r.target (some ⟨ino r.file, 0⟩) ∧
      (∀ j data, w.node j = some (.file data) → ∃ data', w₁.node j = some (.file data')) ∧
      ∀ j, w₁.contents j = if r.dir = .gt ∧ ino r.file = j then [] else w.contents j := by
  have hlt : r.target ≤ 1 := by rw [RedirTok.target]; split <;> decide
  obtain ⟨hfd, hfile, hmode⟩ : r.redir.fd = r.target ∧ r.redir.file = r.file ∧ (r.redir.mode &&& O_TRUNC ≠ 0 ↔ r.dir = .gt) := by
    rcases r with ⟨dir, file, rfl | rfl | rfl⟩
    · exact ⟨rfl, rfl, iff_of_false (by simp [RedirTok.redir, O_RDONLY, O_TRUNC]) (by simp)⟩
    · exact ⟨rfl, rfl, iff_of_true (by simp [RedirTok.redir, O_WRONLY, O_CREATE, O_TRUNC]) rfl⟩
    · exact ⟨rfl, rfl, iff_of_false (by simp [RedirTok.redir, O_WRONLY, O_CREATE, O_TRUNC]) (by simp)⟩
  rw [hfd, hfile] at hopen
  have hbelow : ∀ k < r.target, (w.fd k).isSome := fun k hk => by
    obtain rfl : k = 0 := by omega
    exact h0
  obtain ⟨h1, hfile, h₂⟩ := World.openFile_close hopen hbelow (hlt.trans_lt (by decide))
  exact ⟨h1, hfile, fun j => by simp only [h₂, hmode]⟩

def ins (rs : List RedirTok) : List RedirTok := rs.filter (·.dir = .lt)

def outs (rs : List RedirTok) : List RedirTok := rs.filter (·.dir ≠ .lt)

def opened (ino : Word → I) (r : Option RedirTok) (d : Option (Desc I)) : Option (Desc I) := r.elim d fun r => some ⟨ino r.file, 0⟩

omit [DecidableEq I] in
theorem opened_append (l : List RedirTok) (d : Option (Desc I)) :
    opened ino (l ++ [r]).head? d = opened ino l.head? (some ⟨ino r.file, 0⟩) := by
  cases l <;> rfl

/-- What the redirections do. -/
structure Redirected (ino : Word → I) (rs : List RedirTok) (w w' : World I) : Prop where
  fd0 : w'.fd 0 = opened ino (ins rs).head? (w.fd 0)
  fd1 : w'.fd 1 = opened ino (outs rs).head? (w.fd 1)
  other : ∀ k, k ≠ 0 → k ≠ 1 → w'.fd k = w.fd k
  file : ∀ i data, w.node i = some (.file data) → ∃ data', w'.node i = some (.file data')
  contents : ∀ i, w'.contents i = if ∃ r ∈ rs, r.dir = .gt ∧ ino r.file = i then [] else w.contents i

theorem runcmd_wrap (h0 : (w.fd 0).isSome) (h : runcmd ino (wrap (.exec argv) (rs.map RedirTok.redir)) w = some w') :
    Redirected ino rs w w' := by
  induction rs using List.reverseRecOn generalizing w with
  | nil =>
    rw [List.map_nil, show wrap (.exec argv) [] = .exec argv from rfl, runcmd] at h
    split_ifs at h
    obtain rfl := Option.some.inj h
    exact ⟨rfl, rfl, fun _ _ _ => rfl, fun _ data hw => ⟨data, hw⟩, fun i => by simp⟩
  | append_singleton rs r ih =>
    rw [List.map_append, List.map_singleton, wrap, List.foldl_append] at h
    obtain ⟨w₁, hopen, h⟩ := Option.bind_eq_some_iff.mp h
    obtain ⟨hfd, hfile1, hcont⟩ := openFile_redir h0 hopen
    have h0' : (w₁.fd 0).isSome := by
      rw [hfd, update_apply]
      split
      · rfl
      · exact h0
    obtain ⟨h₀, h1, hother, hfile, hcontents⟩ := ih h0' h
    have hin : ins (rs ++ [r]) = if r.target = 0 then ins rs ++ [r] else ins rs := by
      by_cases hdir : r.dir = .lt <;> simp [ins, RedirTok.target, hdir]
    have hout : outs (rs ++ [r]) = if r.target = 1 then outs rs ++ [r] else outs rs := by
      by_cases hdir : r.dir = .lt <;> simp [outs, RedirTok.target, hdir]
    have hle : r.target = 0 ∨ r.target = 1 := by rw [RedirTok.target]; split <;> simp
    refine ⟨?_, ?_, fun k hk hk' => ?_, fun i data hw => ?_, fun i => ?_⟩
    · rw [h₀, hin, hfd, update_apply]
      rcases hle with he | he
      · rw [if_pos he, if_pos he.symm, opened_append]
      · simp [he]
    · rw [h1, hout, hfd, update_apply]
      rcases hle with he | he
      · simp [he]
      · rw [if_pos he, if_pos he.symm, opened_append]
    · rw [hother k hk hk', hfd, update_of_ne (by rcases hle with he | he <;> rw [he] <;> assumption)]
    · obtain ⟨data', hw1⟩ := hfile1 i data hw
      exact hfile i data' hw1
    · simp only [hcontents, hcont, List.mem_append, List.mem_singleton, or_and_right, exists_or, exists_eq_left, ite_or]

/-! ### Output -/

theorem patch_patch {data a b : List UInt8} {off : Nat} (h : off ≤ data.length) :
    World.patch (World.patch data off a) (off + a.length) b = World.patch data off (a ++ b) := by
  have hlen : (data.take off ++ a).length = off + a.length := by rw [List.length_append, List.length_take, min_eq_left h]
  simp only [World.patch, ← List.append_assoc, List.length_append]
  rw [List.take_left' hlen, add_assoc, ← add_assoc, List.drop_append, hlen]
  simp
  omega

/-- What the command writes to descriptor 1, call after call. -/
def World.output (w : World I) (out : List (List UInt8)) : World I := out.foldl (World.write 1) w

theorem contents_output {out : List (List UInt8)} {data : List UInt8} {off : Nat} (hfd : w.fd 1 = some ⟨i, off⟩)
    (hfile : w.node i = some (.file data)) (hoff : off ≤ data.length) :
    (w.output out).contents i = World.patch data off out.flatten := by
  induction out generalizing w data off with
  | nil => simp [World.output, World.contents, hfile, Node.data, World.patch]
  | cons bytes out ih =>
    rw [List.flatten_cons, ← patch_patch hoff]
    refine ih (w := w.write 1 bytes) ?_ ?_ ?_
    · simp [World.write, hfd, hfile]
    · simp [World.write, hfd, hfile]
    · simp only [World.patch, List.length_append, List.length_take]
      omega

/-! ### Left and right -/

/-- What redirections are for: the rightmost ones count, and `>>` keeps what is in the file. -/
structure Expected (ino : Word → I) (rs : List RedirTok) (out : List (List UInt8)) (w w' : World I) : Prop where
  fd0 : w'.fd 0 = opened ino (ins rs).getLast? (w.fd 0)
  fd1 : w'.fd 1 = opened ino (outs rs).getLast? (w.fd 1)
  other : ∀ k, k ≠ 0 → k ≠ 1 → w'.fd k = w.fd k
  append : ∀ r, (outs rs).getLast? = some r → r.dir = .append →
    w.contents (ino r.file) <+: (w'.output out).contents (ino r.file)

/-- The leftmost and the rightmost redirection name the same file. -/
def SameFile (ino : Word → I) (l : List RedirTok) : Prop := l.head?.map (ino ·.file) = l.getLast?.map (ino ·.file)

/-- For a rightmost `>>`: the output goes on where the file ends, or is what is at its start; in the second case, no `>` has
truncated the file. -/
def Keeps (ino : Word → I) (rs : List RedirTok) (out : List (List UInt8)) (w : World I) : Prop :=
  ∀ r, (outs rs).getLast? = some r → r.dir = .append → w.contents (ino r.file) <+: out.flatten ∨
    out.flatten <+: w.contents (ino r.file) ∧ ∀ r' ∈ rs, r'.dir = .gt → ino r'.file ≠ ino r.file

omit [DecidableEq I] in
theorem opened_eq_iff (l : List RedirTok) (d : Option (Desc I)) :
    opened ino l.head? d = opened ino l.getLast? d ↔ SameFile ino l := by
  rcases l with _ | ⟨r, l⟩
  · exact iff_of_true rfl rfl
  · rw [SameFile, List.getLast?_cons]
    simp [opened]

theorem prefix_patch_iff {data out : List UInt8} : data <+: World.patch data 0 out ↔ data <+: out ∨ out <+: data := by
  rw [World.patch, List.take_zero, List.nil_append, zero_add]
  constructor
  · intro h
    exact List.prefix_or_prefix_of_prefix h (List.prefix_append ..)
  · rintro (h | ⟨l, rfl⟩)
    · exact h.trans (List.prefix_append ..)
    · rw [List.drop_left]

theorem Redirected.append_iff {out : List (List UInt8)} (h : Redirected ino rs w w') (hsame : SameFile ino (outs rs)) :
    (∀ r, (outs rs).getLast? = some r → r.dir = .append →
      w.contents (ino r.file) <+: (w'.output out).contents (ino r.file)) ↔ Keeps ino rs out w := by
  refine forall_congr' fun r => imp_congr_right fun hr => imp_congr_right fun _ => ?_
  have hfd : w'.fd 1 = some ⟨ino r.file, 0⟩ := by
    rw [h.fd1, (opened_eq_iff _ _).mpr hsame, hr]
    rfl
  by_cases hreg : ∃ data, w.node (ino r.file) = some (.file data)
  · obtain ⟨data, hdata⟩ := hreg
    obtain ⟨data', hdata'⟩ := h.file _ data hdata
    have hcont := h.contents (ino r.file)
    have hold : w.contents (ino r.file) = data := by rw [World.contents, hdata, Node.data]
    rw [World.contents, hdata', Node.data, hold] at hcont
    rw [contents_output hfd hdata' (Nat.zero_le _), hold]
    by_cases htrunc : ∃ r' ∈ rs, r'.dir = .gt ∧ ino r'.file = ino r.file
    · rw [if_pos htrunc] at hcont
      obtain ⟨r', hr', hgt, he⟩ := htrunc
      subst hcont
      simp only [World.patch, List.take_nil, List.drop_nil, List.nil_append, List.append_nil]
      exact (or_iff_left fun hno => hno.2 r' hr' hgt he).symm
    · rw [if_neg htrunc] at hcont
      subst hcont
      rw [prefix_patch_iff, and_iff_left fun r' hr' hgt he => htrunc ⟨r', hr', hgt, he⟩]
  · -- nothing is in it
    have hold : w.contents (ino r.file) = [] := by
      rw [World.contents]
      rcases hw : w.node (ino r.file) with _ | data | _ | _
      · rfl
      · exact absurd ⟨data, hw⟩ hreg
      · rfl
      · rfl
    rw [hold]
    exact iff_of_true List.nil_prefix (.inl List.nil_prefix)

/-- A simple command line does what redirections are for if and only if the leftmost and rightmost redirections of the
input name one file, those of the output too, and the output does not spoil what `>>` is to keep. -/
theorem redirections_iff {b : List UInt8} (hb : 0 ∉ b) {s s' : Nat} {cmd : Cmd} {buf : Bytes}
    (hparse : parsecmd b s = .ok ((cmd, buf), s')) (rs : List RedirTok) (args : List (Word × List RedirTok))
    (hline : Lexes b 0 (Deriv.redirToks rs ++ Deriv.argToks args)) (h0 : (w.fd 0).isSome)
    (hrun : runcmd ino cmd w = some w') (out : List (List UInt8)) :
    Expected ino (rs ++ args.flatMap Prod.snd) out w w' ↔ SameFile ino (ins (rs ++ args.flatMap Prod.snd)) ∧
      SameFile ino (outs (rs ++ args.flatMap Prod.snd)) ∧ Keeps ino (rs ++ args.flatMap Prod.snd) out w := by
  obtain ⟨d, -, hd, heq⟩ := (wpe_parsecmd hb hline).of_eq hparse
  obtain ⟨rfl, -⟩ := Prod.mk.inj heq
  have hd' : d.yield ++ [] = (Deriv.line (.single (.simple rs args)) 0).yield ++ [] := by
    rw [hd]
    simp [Deriv.yield]
  obtain ⟨rfl, -⟩ := Deriv.unique d _ hd' (.inl rfl) (.inl rfl)
  have htree : (Deriv.line (.single (.simple rs args)) 0).tree =
      wrap (.exec (args.map Prod.fst)) ((rs ++ args.flatMap Prod.snd).map RedirTok.redir) := by
    rw [List.map_append, List.map_flatMap]
    rfl
  rw [htree] at hrun
  have h := runcmd_wrap h0 hrun
  constructor
  · rintro ⟨e0, e1, -, happ⟩
    have hout := (opened_eq_iff _ _).mp (h.fd1.symm.trans e1)
    exact ⟨(opened_eq_iff _ _).mp (h.fd0.symm.trans e0), hout, (h.append_iff hout).mp happ⟩
  · rintro ⟨hin, hout, hkeep⟩
    exact ⟨h.fd0.trans ((opened_eq_iff _ _).mpr hin), h.fd1.trans ((opened_eq_iff _ _).mpr hout), h.other,
      (h.append_iff hout).mpr hkeep⟩

/-- The console is open as 0, 1 and 2, and file 1 has the byte `x`. -/
def twoFiles : World Nat where
  node i := if i = 0 then some .device else if i = 1 then some (.file [120]) else none
  fd k := if k < 3 then some ⟨0, 0⟩ else none

instance : DecidablePred IsWord := fun _ => inferInstanceAs (Decidable (_ ∧ _))

theorem Lexes.letter {b : List UInt8} {i : Nat} {ts : List Token} (lt : i < b.length) (hi : IsWord (byte b i))
    (max : i + 1 < b.length → ¬ IsWord (byte b (i + 1))) (rest : Lexes b (i + 1) ts) : Lexes b i (.word ⟨i, i + 1⟩ :: ts) := by
  refine .word (Nat.lt_succ_self i) lt (fun k h1 h2 => ?_) max rest
  rwa [show k = i by omega]

theorem parsecmd_simple {b : List UInt8} (rs : List RedirTok) (hb : 0 ∉ b) (h : Lexes b 0 (Deriv.argToks [(⟨0, 1⟩, rs)])) :
    ∃ buf s', parsecmd b 0 = .ok ((wrap (.exec [⟨0, 1⟩]) (rs.map RedirTok.redir), buf), s') := by
  obtain ⟨r, s', hok, rfl⟩ := wp_parsecmd (s := 0) (d := .line (.single (.simple [] [(⟨0, 1⟩, rs)])) 0) hb
    (show 1 ≤ MAXARGS - 1 by decide) (by simpa [Deriv.yield, Deriv.redirToks] using h)
  exact ⟨_, s', by simpa [Deriv.tree] using hok⟩

/-- `a>b` -/
theorem lexes_gt : Lexes [97, 62, 98] 0 (Deriv.argToks [(⟨0, 1⟩, [⟨.gt, ⟨2, 3⟩, .inr (.inl rfl)⟩])]) :=
  .letter (by decide) (by decide) (by decide) (.sym .gt (by decide) (by decide)
    (.letter (by decide) (by decide) (by decide) .nil))

/-- `a>>b`, where `a` writes `y`, and `b` has an `x`: it is gone. And `a>b>c` sends the output to `b`. -/
theorem redirections_wrong :
    (∃ cmd buf s' w', parsecmd [97, 62, 62, 98] 0 = .ok ((cmd, buf), s') ∧ runcmd (fun _ => 1) cmd twoFiles = some w' ∧
      (w'.output [[121]]).contents 1 = [121] ∧
      ¬ Expected (fun _ => 1) [⟨.append, ⟨3, 4⟩, .inr (.inr rfl)⟩] [[121]] twoFiles w') ∧
    ∃ cmd buf s' w', parsecmd [97, 62, 98, 62, 99] 0 = .ok ((cmd, buf), s') ∧ runcmd (·.q) cmd twoFiles = some w' ∧
      w'.fd 1 = some ⟨2, 0⟩ ∧
      ¬ Expected (·.q) [⟨.gt, ⟨2, 3⟩, .inr (.inl rfl)⟩, ⟨.gt, ⟨4, 5⟩, .inr (.inl rfl)⟩] [[121]] twoFiles w' := by
  constructor
  · obtain ⟨buf, s', hok⟩ := parsecmd_simple (b := [97, 62, 62, 98]) [⟨.append, ⟨3, 4⟩, .inr (.inr rfl)⟩] (by decide)
      (.letter (by decide) (by decide) (by decide) (.sym .append (by decide) (by decide)
        (.letter (by decide) (by decide) (by decide) .nil)))
    exact ⟨_, buf, s', _, hok, rfl, rfl, fun h => absurd (h.append _ rfl rfl) (by decide)⟩
  · obtain ⟨buf, s', hok⟩ := parsecmd_simple (b := [97, 62, 98, 62, 99])
      [⟨.gt, ⟨2, 3⟩, .inr (.inl rfl)⟩, ⟨.gt, ⟨4, 5⟩, .inr (.inl rfl)⟩] (by decide)
      (.letter (by decide) (by decide) (by decide) (.sym .gt (by decide) (by decide)
        (.letter (by decide) (by decide) (by decide) (.sym .gt (by decide) (by decide)
          (.letter (by decide) (by decide) (by decide) .nil)))))
    refine ⟨_, buf, s', _, hok, rfl, rfl, fun h => ?_⟩
    cases h.fd1

/-- `a>b` -/
theorem redirections_iff_one : ∃ cmd buf s' w', parsecmd [97, 62, 98] 0 = .ok ((cmd, buf), s') ∧
    runcmd (fun _ => 1) cmd twoFiles = some w' ∧ Expected (fun _ => 1) [⟨.gt, ⟨2, 3⟩, .inr (.inl rfl)⟩] [[121]] twoFiles w' := by
  obtain ⟨buf, s', hok⟩ := parsecmd_simple _ (by decide) lexes_gt
  refine ⟨_, buf, s', _, hok, rfl, (redirections_iff (by decide) hok [] [(⟨0, 1⟩, [⟨.gt, ⟨2, 3⟩, .inr (.inl rfl)⟩])]
    lexes_gt rfl rfl [[121]]).mpr ⟨rfl, rfl, ?_⟩⟩
  rintro r hr happ
  obtain rfl := Option.some.inj hr
  exact absurd happ (by simp)

end Shell

end Xv6
