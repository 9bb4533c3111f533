import CodeTools.MFile.Seeking

/-!
# Copying between handles

`mfile_copy` moves up to 1024 bytes at a time from the one handle to the other.
A short piece ends the loop as if everything had been copied.
-/

namespace code_tools.mfile

open cmem machine

/-! ## What the receiving handle makes of the pieces -/

/-- The allocator refuses a block `attempts` times, from call `n` on. -/
def refuses (alloc : Alloc) : Nat → Nat → Prop
  | 0, _ => True
  | attempts + 1, n => ¬Granted alloc n ∧ refuses alloc attempts (after_refusal alloc n)

theorem refuses_succ {alloc : Alloc} {attempts n : Nat} : refuses alloc (attempts + 1) n ↔
    ¬Granted alloc n ∧ refuses alloc attempts (after_refusal alloc n) :=
  Iff.rfl

/-- None of the given number of pieces gets a byte into the handle. -/
def Refuses (alloc : Alloc) (h : MFile) (pieces : Nat) : Prop :=
  (0 < pieces → h.is_full = true) ∧ refuses alloc pieces h.allocs

/-- What the pieces that make up `bytes` add to a handle: all of them exactly if
    the allocator grants the blocks, and nothing exactly if it refuses every piece. -/
structure Poured (alloc : Alloc) (h h' : MFile) (bytes more : List UInt8) (pieces : Nat) : Prop where
  sound : Sound h'
  solid : Solid h.head → Solid h'.head
  size : h'.DATA_BLOCK_SIZE = h.DATA_BLOCK_SIZE
  grown : content h' = content h ++ more
  le : more.length ≤ bytes.length
  whole : Supplied alloc h bytes.length → more = bytes
  short : ¬Supplied alloc h bytes.length → more.length < bytes.length
  nothing : more = [] ↔ Refuses alloc h pieces

theorem Poured.nil {alloc : Alloc} {h : MFile} (hsound : Sound h) (hsize : 0 < h.DATA_BLOCK_SIZE) :
    Poured alloc h h [] [] 0 :=
  ⟨hsound, id, rfl, (List.append_nil _).symm, Nat.le_refl 0, fun _ => rfl,
    fun hnot => absurd (supplied_zero hsize) hnot, iff_of_true rfl ⟨nofun, trivial⟩⟩

/-- One piece more, written first. -/
theorem Poured.cons {alloc : Alloc} {h h₁ h₂ : MFile} {piece bytes more : List UInt8} {rc : Int} {pieces : Nat}
    (hsound : Sound h) (hsize : 0 < h.DATA_BLOCK_SIZE) (hpiece : piece ≠ [])
    (hwrite : mwrite alloc h piece piece.length = .ok (h₁, rc))
    (hrest : Sound h₁ → h₁.DATA_BLOCK_SIZE = h.DATA_BLOCK_SIZE → Poured alloc h₁ h₂ bytes more pieces) :
    ∃ more', Poured alloc h h₂ (piece ++ bytes) more' (pieces + 1) := by
  obtain ⟨h', rc', count, hwrite', hwrote, hchunks⟩ := mwrite_wrote alloc hsound hsize (Int.le_refl piece.length)
  obtain ⟨rfl, rfl⟩ := ok_inj hwrite' hwrite
  rw [Int.toNat_natCast] at hwrote
  have hpos := List.length_pos_of_ne_nil hpiece
  have hpoured := hrest hwrote.sound hwrote.untouched.size
  have hcontent : content h' = content h ++ piece.take count := hchunks.contents_eq
  have hdone : Supplied alloc h piece.length → rc' = 1 ∧ count = piece.length ∧
      ∀ m, Supplied alloc h (piece.length + m) ↔ Supplied alloc h' m := hwrote.done
  have hshort : ¬Supplied alloc h piece.length → rc' = -1 ∧ count < piece.length := hwrote.short
  have hstarted : 0 < piece.length → (h.is_full = true → Granted alloc h.allocs) → 0 < count := hwrote.started
  have hrefused : 0 < piece.length → h.is_full = true → ¬Granted alloc h.allocs →
      count = 0 ∧ h'.is_full = true ∧ h'.allocs = after_refusal alloc h.allocs := hwrote.refused
  have hlength : (piece.take count).length ≤ piece.length := by
    rw [List.length_take]
    omega
  have hmore := hpoured.le
  refine ⟨piece.take count ++ more, hpoured.sound, fun hsolid => hpoured.solid (hwrote.solid hsolid),
    hpoured.size.trans hwrote.untouched.size, ?_, ?_, ?_, ?_, ?_⟩
  · rw [hpoured.grown, hcontent, List.append_assoc]
  · rw [List.length_append, List.length_append]
    omega
  · intro hsupplied
    rw [List.length_append] at hsupplied
    obtain ⟨_, hcount, hnext⟩ := hdone (supplied_of_le (by omega) hsupplied)
    rw [hcount, List.take_length, hpoured.whole ((hnext _).mp hsupplied)]
  · intro hnot
    rw [List.length_append] at hnot
    rw [List.length_append, List.length_append, List.length_take]
    by_cases hfirst : Supplied alloc h piece.length
    · obtain ⟨_, _, hnext⟩ := hdone hfirst
      have hlate := hpoured.short fun hsupplied => hnot ((hnext _).mpr hsupplied)
      omega
    · obtain ⟨_, hcount⟩ := hshort hfirst
      omega
  · rw [List.append_eq_nil_iff, hpoured.nothing]
    by_cases hblock : h.is_full = true → Granted alloc h.allocs
    · have hcount := hstarted hpos hblock
      refine iff_of_false ?_ ?_
      · rintro ⟨htake, _⟩
        have hlen := congrArg List.length htake
        rw [List.length_take, List.length_nil] at hlen
        omega
      · rintro ⟨hfull, hnot, _⟩
        exact hnot (hblock (hfull (Nat.succ_pos pieces)))
    · obtain ⟨hfull, hnot⟩ := Classical.not_imp.mp hblock
      obtain ⟨rfl, hfull', hallocs⟩ := hrefused hpos hfull hnot
      unfold Refuses
      rw [refuses_succ, hallocs, List.take_zero]
      constructor
      · rintro ⟨_, _, hlater⟩
        exact ⟨fun _ => hfull, hnot, hlater⟩
      · rintro ⟨_, _, hlater⟩
        exact ⟨rfl, fun _ => hfull', hlater⟩

/-! ## The loop -/

/-- The number of pieces that bytes are moved in. -/
def pieces (n : Nat) : Nat := (n + 1023) / 1024

/-- The copy loop moves what is ahead of the source, at most up to `stop`. It
    fails exactly when it meets the end after a whole number of pieces. -/
theorem mfile_copy_loop_poured (alloc : Alloc) {fuel : Nat} {dest src : MFile} {i stop : Nat} {todo : List UInt8}
    (hfaces : Faces src todo) (hsound : Sound dest) (hsize : 0 < dest.DATA_BLOCK_SIZE)
    (hfuel : stop - i ≤ fuel) :
    ∃ dest' src' more, mfile_copy_loop alloc fuel dest src i stop =
        .ok (dest', src', decide ¬(todo.length < stop - i ∧ todo.length % 1024 = 0)) ∧ SameStore src src' ∧
      Poured alloc dest dest' (todo.take (stop - i)) more (pieces (min (stop - i) todo.length)) := by
  induction fuel generalizing dest src i todo with
  | zero =>
    refine ⟨dest, src, [], ?_, SameStore.refl src, ?_⟩
    · unfold mfile_copy_loop
      rw [if_neg (by omega), decide_eq_true (by omega)]
    · rw [show stop - i = 0 by omega, List.take_zero, Nat.zero_min]
      exact Poured.nil hsound hsize
  | succ fuel ih =>
    unfold mfile_copy_loop
    by_cases hmore : i < stop
    · obtain ⟨j, hj⟩ : ∃ j, j = min (stop - i) 1024 := ⟨_, rfl⟩
      obtain ⟨src₁, hread, hsame₁, hleft, _⟩ := mread_faces hfaces j
      rw [Int.toNat_natCast] at hread hleft
      have hlength : (todo.take j).length = min j todo.length := List.length_take
      rw [if_pos hmore]
      dsimp only
      rw [← hj, hread, ok_bind]
      dsimp only
      by_cases hnone : todo = []
      · rw [hnone, List.take_nil, List.length_nil, if_pos (by split <;> omega), decide_eq_false (by simp; omega)]
        refine ⟨dest, src₁, [], rfl, hsame₁, ?_⟩
        rw [List.take_nil, Nat.min_zero]
        exact Poured.nil hsound hsize
      have hpos := List.length_pos_of_ne_nil hnone
      have hblocks : src.head ≠ [] := by
        intro hempty
        have hstart : read_start src = none := by
          unfold read_start
          cases hp : src.current_read_p with
          | none => rw [hempty]; rfl
          | some a =>
            have hmem := hfaces.sound.reader a hp
            rw [hempty] at hmem
            cases hmem
        exact hnone (hfaces.eq_nil hstart).2
      have hpiece : todo.take j ≠ [] := by
        apply List.ne_nil_of_length_pos
        omega
      obtain ⟨dest₁, rc, count, hwrite, hwrote, _⟩ :=
        mwrite_wrote alloc hsound hsize (Int.le_refl (todo.take j).length)
      rw [if_neg hblocks, if_neg (by omega), hwrite, ok_bind]
      by_cases hlast : (todo.take j).length < 1024
      · rw [if_pos (by omega), decide_eq_true (by omega)]
        have hall : todo.take (stop - i) = todo.take j ++ [] := by
          rw [List.append_nil, List.take_eq_take_iff]
          omega
        obtain ⟨more, hpoured⟩ := Poured.cons hsound hsize hpiece hwrite
          fun hsound₁ hsize₁ => Poured.nil hsound₁ (hsize₁ ▸ hsize)
        refine ⟨dest₁, src₁, more, rfl, hsame₁, ?_⟩
        rw [hall, show pieces (min (stop - i) todo.length) = 0 + 1 by unfold pieces; omega]
        exact hpoured
      · obtain rfl : j = 1024 := by omega
        obtain ⟨dest', src', more, hloop, hsame', hpoured⟩ := ih (hleft (Or.inr (by omega))) hwrote.sound
          (by rw [hwrote.untouched.size]; exact hsize) (by omega : stop - (i + 1024) ≤ fuel)
        obtain ⟨more', hpoured'⟩ := Poured.cons hsound hsize hpiece hwrite fun _ _ => hpoured
        have hlen : (todo.drop 1024).length = todo.length - 1024 := List.length_drop
        have hcopied :
            decide (¬((todo.drop 1024).length < stop - (i + 1024) ∧ (todo.drop 1024).length % 1024 = 0)) =
              decide (¬(todo.length < stop - i ∧ todo.length % 1024 = 0)) := by
          rw [decide_eq_decide, hlen]
          omega
        have hcount : pieces (min (stop - (i + 1024)) (todo.drop 1024).length) + 1 =
            pieces (min (stop - i) todo.length) := by
          unfold pieces
          rw [hlen]
          omega
        rw [if_neg (by omega), hloop, hcopied]
        refine ⟨dest', src', more', rfl, hsame₁.trans hsame', ?_⟩
        rw [← List.take_add, hcount, show 1024 + (stop - (i + 1024)) = stop - i by omega] at hpoured'
        exact hpoured'
    · refine ⟨dest, src, [], ?_, SameStore.refl src, ?_⟩
      · rw [if_neg hmore, decide_eq_true (by omega)]
      · rw [show stop - i = 0 by omega, List.take_zero, Nat.zero_min]
        exact Poured.nil hsound hsize

/-! ## A whole copy -/

/-- The bytes that a copy from `start` on finds in a handle. -/
def found (src : MFile) (start : UInt32) : List UInt8 := sought src.head (as_int start).toNat

/-- The copy meets the end of the source where a piece begins. -/
def RunsDry (src : MFile) (start stop : UInt32) : Prop :=
  (found src start).length < stop.toNat - start.toNat ∧ (found src start).length % 1024 = 0

instance (src : MFile) (start stop : UInt32) : Decidable (RunsDry src start stop) :=
  inferInstanceAs (Decidable (_ ∧ _))

theorem mfile_copy_poured (alloc : Alloc) {dest src : MFile} (hsrc : Sound src) (hdest : Sound dest)
    (hsize : 0 < dest.DATA_BLOCK_SIZE) (start stop : UInt32) :
    ∃ dest' src' more, mfile_copy alloc dest src start stop =
        .ok (dest', src', if RunsDry src start stop then -1 else as_int (stop - start)) ∧ SameStore src src' ∧
      Poured alloc dest dest' ((found src start).take (stop.toNat - start.toNat)) more
        (pieces (min (stop.toNat - start.toNat) (found src start).length)) := by
  obtain ⟨hsame, _⟩ := mseek_pos_same hsrc (as_int start).toNat
  obtain ⟨dest', src', more, hloop, hsame', hpoured⟩ := mfile_copy_loop_poured alloc
    (mseek_pos_faces hsrc (as_int start).toNat) hdest hsize (Nat.le_refl (stop.toNat - start.toNat))
  have hflag : mfile_copy_loop alloc (stop.toNat - start.toNat) dest (mseek_pos src (as_int start).toNat)
      start.toNat stop.toNat = .ok (dest', src', decide (¬RunsDry src start stop)) := hloop
  refine ⟨dest', src', more, ?_, hsame.trans hsame', hpoured⟩
  unfold mfile_copy
  rw [mseek_pos_toNat, hflag, ok_bind]
  by_cases hdry : RunsDry src start stop
  · rw [if_pos hdry, decide_eq_false (not_not_intro hdry)]
    rfl
  · rw [if_neg hdry, decide_eq_true hdry]
    rfl

theorem toNat_sub_of_le {start stop : UInt32} (hle : start.toNat ≤ stop.toNat) :
    (stop - start).toNat = stop.toNat - start.toNat := by
  have hlt := stop.toNat_lt
  rw [UInt32.toNat_sub]
  omega

/-- A copy of bytes that the source holds is right if and only if it is empty or
    starts at 0 or strictly inside a block. -/
theorem mfile_copy_slice_iff {alloc alloc' : Alloc} (halloc : ∀ n, (alloc n).isSome)
    (halloc' : ∀ n, (alloc' n).isSome) {size size' : Nat} (hsize : 1 ≤ size) (hsize' : 1 ≤ size')
    {af fe af' fe' : Bool} {h h' dest src : MFile} (hopen : mopen alloc size af fe = .ok (some h))
    (hopen' : mopen alloc' size' af' fe' = .ok (some h')) {ops ops' : List Op} {outs outs' : List Outcome}
    (hallowed : Legal Contents.step (Contents.Allowed size) Contents.empty ops)
    (hallowed' : Legal Contents.step (Contents.Allowed size') Contents.empty ops')
    (hrun : run (exec alloc) h ops = .ok (dest, outs)) (hrun' : run (exec alloc') h' ops' = .ok (src, outs'))
    {start stop : UInt32} (hle : start ≤ stop) (hstop : (stop.toNat : Int) ≤ msize src) :
    (∃ dest' src', mfile_copy alloc dest src start stop = .ok (dest', src', (stop.toNat : Int) - start.toNat) ∧
        content dest' = content dest ++ ((content src).drop start.toNat).take (stop.toNat - start.toNat) ∧
        content src' = content src) ↔
      start = stop ∨ Inside src.head start.toNat := by
  obtain ⟨_, _, hsame, _, hholds, _⟩ := holds_along_run halloc hsize hopen hallowed
  obtain ⟨rfl, _⟩ := ok_inj hrun hsame
  obtain ⟨_, _, hsame, _, hholds', hbounded⟩ := holds_along_run halloc' hsize' hopen' hallowed'
  obtain ⟨rfl, _⟩ := ok_inj hrun' hsame
  have hle : start.toNat ≤ stop.toNat := UInt32.le_iff_toNat_le.mp hle
  have hlength : stop.toNat ≤ (content src).length := by
    have htotal : msize src = _ := hholds'.total_size
    rw [hholds'.bytes]
    omega
  have hint : stop.toNat < 2 ^ 31 := by
    rw [hholds'.bytes] at hlength
    omega
  have hstart : (as_int start).toNat = start.toNat := by
    unfold as_int
    rw [if_pos (by omega), Int.toNat_natCast]
  have hvalue : as_int (stop - start) = (stop.toNat : Int) - start.toNat := by
    unfold as_int
    rw [toNat_sub_of_le hle, if_pos (by omega)]
    omega
  obtain ⟨dest', src', more, hcopy, hsame, hpoured⟩ := mfile_copy_poured alloc hholds'.layout.sound
    hholds.layout.sound (by rw [hholds.block_size]; exact hsize) start stop
  have hmore := hpoured.whole (supplied_of_forall halloc _ _)
  have hfound : found src start = sought src.head start.toNat := by rw [found, hstart]
  rw [hvalue] at hcopy
  by_cases hright : start = stop ∨ Inside src.head start.toNat
  · refine iff_of_true ⟨dest', src', ?_, ?_, hsame.content_eq⟩ hright
    · rw [hcopy, if_neg]
      rintro ⟨hfew, _⟩
      rcases hright with rfl | hinside
      · omega
      · rw [hfound, sought_of_inside hholds'.layout hinside, List.length_drop] at hfew
        omega
    · rw [hpoured.grown, hmore]
      rcases hright with rfl | hinside
      · rw [Nat.sub_self, List.take_zero, List.take_zero]
      · rw [hfound, sought_of_inside hholds'.layout hinside]
  · rw [not_or] at hright
    have hlt : start.toNat < stop.toNat := Nat.lt_of_le_of_ne hle fun heq => hright.1 (UInt32.toNat_inj.mp heq)
    refine iff_of_false ?_ (not_or.mpr hright)
    rintro ⟨dest'', src'', hcopy', _⟩
    rcases mseek_pos_not_inside hholds'.layout.sound hright.2 with ⟨_, _, _, _, _, _, _, hnone⟩ | ⟨_, hfar⟩
    · have hdry : RunsDry src start stop := by
        unfold RunsDry
        rw [hfound, hnone, List.length_nil]
        omega
      rw [hcopy, if_pos hdry] at hcopy'
      have hrc := congrArg (fun r => r.2.2) (Except.ok.inj hcopy')
      dsimp only at hrc
      omega
    · have hheld := length_contents hholds'.layout.sound.sized
      unfold content at hlength
      omega

/-! ## What the result says -/

/-- A result that is not negative is the number of bytes appended, and -1 means
    that there are none. -/
def Honest (dest dest' : MFile) (rc : Int) : Prop :=
  (0 ≤ rc → ∃ more, content dest' = content dest ++ more ∧ (more.length : Int) = rc) ∧
    (rc = -1 → content dest' = content dest)

/-- When the result is right. A copy that returns -1, or is asked for 2^32 - 1
    bytes so that its length is -1 too, must get nothing into `dest`. Any other
    must find and store all it is asked for, or have a length that is negative as
    an `int`. -/
def Truthful (alloc : Alloc) (dest src : MFile) (start stop : UInt32) : Prop :=
  if start.toNat < stop.toNat then
    let wanted := stop.toNat - start.toNat
    if RunsDry src start stop ∨ wanted = 2 ^ 32 - 1 then
      Refuses alloc dest (pieces (min wanted (found src start).length))
    else 2 ^ 31 ≤ wanted ∨ wanted ≤ (found src start).length ∧ Supplied alloc dest wanted
  else start.toNat - stop.toNat ≤ 2 ^ 31

theorem honest_iff {dest dest' : MFile} {more : List UInt8} (hgrown : content dest' = content dest ++ more)
    (rc : Int) : Honest dest dest' rc ↔ (0 ≤ rc → (more.length : Int) = rc) ∧ (rc = -1 → more = []) := by
  unfold Honest
  rw [hgrown]
  constructor
  · rintro ⟨hcount, hnone⟩
    refine ⟨fun hrc => ?_, fun hrc => List.self_eq_append_right.mp (hnone hrc).symm⟩
    obtain ⟨more', heq, hlength⟩ := hcount hrc
    rwa [List.append_cancel_left heq]
  · rintro ⟨hcount, hnone⟩
    exact ⟨fun hrc => ⟨more, rfl, hcount hrc⟩, fun hrc => by rw [hnone hrc, List.append_nil]⟩

/-- The length of a copy that goes forward, as the `int` that is returned. -/
theorem as_int_forward {start stop : UInt32} (hlt : start.toNat < stop.toNat) :
    as_int (stop - start) = if stop.toNat - start.toNat < 2 ^ 31 then ((stop.toNat - start.toNat : Nat) : Int)
      else ((stop.toNat - start.toNat : Nat) : Int) - 2 ^ 32 := by
  unfold as_int
  rw [toNat_sub_of_le (Nat.le_of_lt hlt)]

/-- The length of a copy that goes backward, as the `int` that is returned. -/
theorem as_int_backward {start stop : UInt32} (hle : stop.toNat ≤ start.toNat) :
    as_int (stop - start) = if start.toNat - stop.toNat ≤ 2 ^ 31 then -((start.toNat - stop.toNat : Nat) : Int)
      else 2 ^ 32 - ((start.toNat - stop.toNat : Nat) : Int) := by
  have hstart := start.toNat_lt
  have hstop := stop.toNat_lt
  unfold as_int
  rw [UInt32.toNat_sub]
  split
  · split
    · omega
    · omega
  · split
    · omega
    · omega

section

variable {alloc : Alloc} {dest dest' src : MFile} {start stop : UInt32} {more : List UInt8}

/-- A copy that goes forward. -/
theorem Poured.honest_forward (hpoured : Poured alloc dest dest' ((found src start).take (stop.toNat - start.toNat))
      more (pieces (min (stop.toNat - start.toNat) (found src start).length)))
    (hlt : start.toNat < stop.toNat) :
    Honest dest dest' (if RunsDry src start stop then -1 else as_int (stop - start)) ↔
      Truthful alloc dest src start stop := by
  have hle := hpoured.le
  have hwhole := hpoured.whole
  have hshort := hpoured.short
  have htake : ((found src start).take (stop.toNat - start.toNat)).length =
      min (stop.toNat - start.toNat) (found src start).length := List.length_take
  rw [htake] at hle hwhole hshort
  have hvalue := as_int_forward hlt
  have hbound := stop.toNat_lt
  rw [honest_iff hpoured.grown]
  unfold Truthful
  rw [if_pos hlt]
  dsimp only
  by_cases hminus : RunsDry src start stop ∨ stop.toNat - start.toNat = 2 ^ 32 - 1
  · have hrc : (if RunsDry src start stop then -1 else as_int (stop - start)) = -1 := by
      rcases hminus with hdry | hall
      · rw [if_pos hdry]
      · rw [hvalue, if_neg (by omega : ¬stop.toNat - start.toNat < 2 ^ 31)]
        split
        · rfl
        · omega
    rw [hrc, if_pos hminus, ← hpoured.nothing]
    exact ⟨fun h => h.2 rfl, fun hnone => ⟨fun hneg => absurd hneg (by decide), fun _ => hnone⟩⟩
  rw [if_neg hminus]
  rw [not_or] at hminus
  rw [if_neg hminus.1, hvalue]
  by_cases hsmall : stop.toNat - start.toNat < 2 ^ 31
  · rw [if_pos hsmall]
    constructor
    · rintro ⟨hcount, _⟩
      have hlength := hcount (by omega)
      refine Or.inr ⟨by omega, ?_⟩
      by_contra hnot
      rw [Nat.min_eq_left (by omega)] at hshort
      have hfew := hshort hnot
      omega
    · rintro (hlarge | ⟨hthere, hsupplied⟩)
      · omega
      · rw [Nat.min_eq_left hthere] at hwhole htake
        rw [hwhole hsupplied, htake]
        exact ⟨fun _ => rfl, fun hneg => by omega⟩
  · rw [if_neg hsmall]
    exact iff_of_true ⟨fun _ => by omega, fun _ => by omega⟩ (Or.inl (by omega))

/-- A copy that goes backward moves nothing. -/
theorem Poured.honest_backward (hpoured : Poured alloc dest dest' ((found src start).take (stop.toNat - start.toNat))
      more (pieces (min (stop.toNat - start.toNat) (found src start).length)))
    (hle : stop.toNat ≤ start.toNat) :
    Honest dest dest' (if RunsDry src start stop then -1 else as_int (stop - start)) ↔
      Truthful alloc dest src start stop := by
  have hdry : ¬RunsDry src start stop := by
    rintro ⟨hfew, _⟩
    omega
  have hnone : more = [] := by
    have hcount := hpoured.le
    rw [List.length_take] at hcount
    apply List.eq_nil_of_length_eq_zero
    omega
  have hbound := start.toNat_lt
  rw [honest_iff hpoured.grown]
  unfold Truthful
  rw [if_neg (by omega : ¬start.toNat < stop.toNat), if_neg hdry, as_int_backward hle, hnone, List.length_nil]
  by_cases hnear : start.toNat - stop.toNat ≤ 2 ^ 31
  · rw [if_pos hnear]
    exact iff_of_true ⟨fun hrc => by omega, fun _ => rfl⟩ hnear
  · rw [if_neg hnear]
    refine iff_of_false ?_ hnear
    rintro ⟨hcount, _⟩
    have hzero := hcount (by omega)
    omega

end

/-- The result of a copy between any two handles is right if and only if the
    condition holds, whatever the allocator refuses. -/
theorem mfile_copy_honest_iff {alloc alloc' : Alloc} {size size' : Nat} (hsize : 1 ≤ size) (hsize' : 1 ≤ size')
    {af fe af' fe' : Bool} {h h' dest src : MFile} (hopen : mopen alloc size af fe = .ok (some h))
    (hopen' : mopen alloc' size' af' fe' = .ok (some h')) {calls calls' : List Call} {replies replies' : List Reply}
    (hcovered : ∀ call ∈ calls, call.Covered) (hcovered' : ∀ call ∈ calls', call.Covered)
    (hrun : run (perform alloc) h calls = .ok (dest, replies))
    (hrun' : run (perform alloc') h' calls' = .ok (src, replies')) (start stop : UInt32) :
    (∃ dest' src' rc, mfile_copy alloc dest src start stop = .ok (dest', src', rc) ∧ Honest dest dest' rc) ↔
      Truthful alloc dest src start stop := by
  obtain ⟨hdest, hblock⟩ := sound_along_run hsize hopen hcovered hrun
  obtain ⟨hsrc, _⟩ := sound_along_run hsize' hopen' hcovered' hrun'
  obtain ⟨dest', src', more, hcopy, _, hpoured⟩ :=
    mfile_copy_poured alloc hsrc hdest (by rw [hblock]; exact hsize) start stop
  have hresult : Honest dest dest' (if RunsDry src start stop then -1 else as_int (stop - start)) ↔
      Truthful alloc dest src start stop := by
    by_cases hlt : start.toNat < stop.toNat
    · exact hpoured.honest_forward hlt
    · exact hpoured.honest_backward (by omega)
  rw [← hresult]
  constructor
  · rintro ⟨dest'', src'', rc, hcopy', hhonest⟩
    obtain ⟨rfl, _, rfl⟩ := by simpa using hcopy.symm.trans hcopy'
    exact hhonest
  · intro hhonest
    exact ⟨dest', src', _, hcopy, hhonest⟩

instance refuses.decidable (alloc : Alloc) : ∀ attempts n, Decidable (refuses alloc attempts n)
  | 0, _ => .isTrue trivial
  | attempts + 1, n =>
    have := refuses.decidable alloc attempts (after_refusal alloc n)
    inferInstanceAs (Decidable (¬Granted alloc n ∧ refuses alloc attempts (after_refusal alloc n)))

instance (alloc : Alloc) (h : MFile) (pieces : Nat) : Decidable (Refuses alloc h pieces) :=
  inferInstanceAs (Decidable (_ ∧ _))

instance (alloc : Alloc) (dest src : MFile) (start stop : UInt32) :
    Decidable (Truthful alloc dest src start stop) :=
  inferInstanceAs (Decidable (if start.toNat < stop.toNat then
    if RunsDry src start stop ∨ stop.toNat - start.toNat = 2 ^ 32 - 1 then
      Refuses alloc dest (pieces (min (stop.toNat - start.toNat) (found src start).length))
    else 2 ^ 31 ≤ stop.toNat - start.toNat ∨
      stop.toNat - start.toNat ≤ (found src start).length ∧ Supplied alloc dest (stop.toNat - start.toNat)
    else start.toNat - stop.toNat ≤ 2 ^ 31))

/-- An allocator that grants everything. -/
def granting : Alloc := fun _ => some fun _ => 0

/-- The third byte of three is copied into an empty handle. -/
theorem mfile_copy_honest_one :
    ∃ src replies dest' src' rc, run (perform granting) (new_handle 2 true) [.op (.mwrite [1, 2, 3] 3)] =
        .ok (src, replies) ∧
      mfile_copy granting (new_handle 4 true) src 1 3 = .ok (dest', src', rc) ∧
      Honest (new_handle 4 true) dest' rc := by
  obtain ⟨src, replies, hrun, htruthful⟩ := run_of_view
    (fun src : MFile => decide (Truthful granting (new_handle 4 true) src 1 3))
    (by decide +kernel : (run (perform granting) (new_handle 2 true) [.op (.mwrite [1, 2, 3] 3)]).toOption.map
      (fun r => decide (Truthful granting (new_handle 4 true) r.1 1 3)) = some true)
  obtain ⟨dest', src', rc, hcopy, hhonest⟩ := (mfile_copy_honest_iff (by decide) (by decide)
    (rfl : mopen granting 4 true true = .ok (some (new_handle 4 true)))
    (rfl : mopen granting 2 true true = .ok (some (new_handle 2 true))) (by simp) (by decide)
    (run_nil (perform granting) _) hrun 1 3).mpr (of_decide_eq_true htruthful)
  exact ⟨src, replies, dest', src', rc, hrun, hcopy, hhonest⟩

theorem mfile_copy_slice_two :
    ∃ src outs dest' src', run (exec granting) (new_handle 2 true) [.mwrite [1, 2, 3, 4] 4] = .ok (src, outs) ∧
      mfile_copy granting (new_handle 4 true) src 1 4 = .ok (dest', src', 3) ∧
      content dest' = [2, 3, 4] ∧ content src' = [1, 2, 3, 4] := by
  obtain ⟨src, outs, hrun, hview⟩ := run_of_view
    (fun src : MFile => (src.total_size, content src, src.head.map fun x => x.2.current_write_count))
    (by decide +kernel : (run (exec granting) (new_handle 2 true) [.mwrite [1, 2, 3, 4] 4]).toOption.map
      (fun r => (r.1.total_size, content r.1, r.1.head.map fun x => x.2.current_write_count)) =
        some (4, [1, 2, 3, 4], [2, 2]))
  obtain ⟨htotal, hcontent, hcounts⟩ := by simpa only [Prod.mk.injEq] using hview
  obtain ⟨x, q, hhead, hx, _⟩ := List.map_eq_cons_iff.mp hcounts
  have hinside : Inside src.head 1 := Or.inr (Or.inr ⟨[], x, q, hhead, by decide, by rw [hx]; decide⟩)
  have hstop : ((4 : UInt32).toNat : Int) ≤ msize src := Int.le_of_eq htotal.symm
  have hnothing : Legal Contents.step (Contents.Allowed 4) Contents.empty [] := trivial
  obtain ⟨dest', src', hcopy, hdest, hsrc⟩ := (mfile_copy_slice_iff (by simp [granting]) (by simp [granting])
    (by decide) (by decide) (rfl : mopen granting 4 true true = .ok (some (new_handle 4 true)))
    (rfl : mopen granting 2 true true = .ok (some (new_handle 2 true))) hnothing
    (by decide : Legal Contents.step (Contents.Allowed 2) Contents.empty [.mwrite [1, 2, 3, 4] 4])
    (run_nil (exec granting) _) hrun (by decide : (1 : UInt32) ≤ 4) hstop).mpr (Or.inr hinside)
  refine ⟨src, outs, dest', src', hrun, hcopy, ?_, hsrc.trans hcontent⟩
  rw [hdest, hcontent]
  rfl

/-- A copy that starts at the end of a block fails although its bytes are there. -/
theorem mfile_copy_fails_at_boundary :
    ∃ src outs, run (exec granting) (new_handle 2 true) [.mwrite [1, 2, 3, 4] 4] = .ok (src, outs) ∧
      msize src = 4 ∧
      (mfile_copy granting (new_handle 4 true) src 2 4).toOption.map (fun r => (r.2.2, content r.1)) =
        some (-1, []) := by
  obtain ⟨src, outs, hrun, hview⟩ := run_of_view
    (fun src : MFile => (msize src,
      (mfile_copy granting (new_handle 4 true) src 2 4).toOption.map fun r => (r.2.2, content r.1)))
    (by decide +kernel : (run (exec granting) (new_handle 2 true) [.mwrite [1, 2, 3, 4] 4]).toOption.map
      (fun r => (msize r.1,
        (mfile_copy granting (new_handle 4 true) r.1 2 4).toOption.map fun r => (r.2.2, content r.1))) =
        some (4, some (-1, [])))
  obtain ⟨hsize, hcopy⟩ := Prod.mk.inj hview
  exact ⟨src, outs, hrun, hsize, hcopy⟩

/-- Three bytes are there, and a copy of ten says that it copied ten. -/
theorem mfile_copy_overstates :
    ∃ src replies dest' src', run (perform granting) (new_handle 4 true) [.op (.mwrite [1, 2, 3] 3)] =
        .ok (src, replies) ∧
      mfile_copy granting (new_handle 4 true) src 0 10 = .ok (dest', src', 10) ∧ content dest' = [1, 2, 3] ∧
      ¬Honest (new_handle 4 true) dest' 10 := by
  obtain ⟨src, replies, hrun, hcopy⟩ := run_of_view
    (fun src : MFile =>
      (mfile_copy granting (new_handle 4 true) src 0 10).toOption.map fun r => (r.2.2, content r.1))
    (by decide +kernel : (run (perform granting) (new_handle 4 true) [.op (.mwrite [1, 2, 3] 3)]).toOption.map
      (fun r => (mfile_copy granting (new_handle 4 true) r.1 0 10).toOption.map fun r => (r.2.2, content r.1)) =
        some (some (10, [1, 2, 3])))
  obtain ⟨⟨dest', src', rc⟩, hresult, hview⟩ :=
    eq_ok_of_view (fun r : MFile × MFile × Int => (r.2.2, content r.1)) hcopy
  obtain ⟨rfl, hcontent⟩ := by simpa only [Prod.mk.injEq] using hview
  refine ⟨src, replies, dest', src', hrun, hresult, hcontent, fun hhonest => ?_⟩
  obtain ⟨more, hgrown, hlength⟩ := hhonest.1 (by decide)
  rw [hcontent] at hgrown
  obtain rfl : [1, 2, 3] = more := hgrown
  exact absurd hlength (by decide)

end code_tools.mfile
