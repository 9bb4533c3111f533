import CodeTools.MFile.Calls
import Mathlib.Algebra.GroupWithZero.Nat

/-!
# Seeking

After a rewind everything is ahead of the reader. A seek to a position stops in
the first block that reaches up to it. If the block ends there, the reader stands
behind its last byte and takes it for the end.
-/

namespace code_tools.mfile

open cmem machine

/-! ## What a seek finds -/

/-- How many bytes a queue of blocks holds. -/
def held (q : Tailq DataBlock) : Nat := (q.map (·.2.current_write_count)).sum

theorem held_cons (x : Nat × DataBlock) (q : Tailq DataBlock) :
    held (x :: q) = x.2.current_write_count + held q :=
  List.sum_cons

theorem length_contents {size : Nat} {q : Tailq DataBlock} (hsized : ∀ x ∈ q, x.2.Sized size) :
    (contents q).length = held q := by
  induction q with
  | nil => rfl
  | cons x q ih =>
    rw [contents_cons, held_cons, List.length_append, (hsized x List.mem_cons_self).length_written,
      ih fun y hy => hsized y (List.mem_cons_of_mem x hy)]

/-- What is ahead of the reader after a seek that finds its position. -/
def after_seek : Tailq DataBlock → Nat → Option (List UInt8)
  | [], _ => none
  | (a, block) :: q, pos =>
    if pos ≤ block.current_write_count then
      some (ahead ((a, { block with current_read_count := pos }) :: shelf q))
    else after_seek q (pos - block.current_write_count)

/-- What is ahead of the reader after a seek; it is everything when the position
    is not found. -/
def sought (q : Tailq DataBlock) (pos : Nat) : List UInt8 := (after_seek q pos).getD (ahead (shelf q))

theorem mem_shelf {q : Tailq DataBlock} {x : Nat × DataBlock} (hx : x ∈ shelf q) :
    x.2.current_read_count = 0 ∧ ∃ y ∈ q, y.2.current_write_count = x.2.current_write_count := by
  obtain ⟨y, hy, rfl⟩ := List.mem_map.mp hx
  exact ⟨rfl, y, hy, rfl⟩

/-- The loop of `mseek_pos` stops in the first block that reaches up to the
    position, and nowhere if the queue is too short. -/
theorem seek_loop_spec (q : Tailq DataBlock) (pos : Nat) :
    (∃ pre a block post k, q = pre ++ (a, block) :: post ∧ pos = held pre + k ∧
        k ≤ block.current_write_count ∧ (pre ≠ [] → 0 < k) ∧
        seek_loop (shelf q) pos =
          (shelf pre ++ (a, { block with current_read_count := k }) :: shelf post, some a) ∧
        after_seek q pos = some (ahead ((a, { block with current_read_count := k }) :: shelf post))) ∨
      (seek_loop (shelf q) pos = (shelf q, none) ∧ after_seek q pos = none ∧ (q = [] ∨ held q < pos)) := by
  induction q generalizing pos with
  | nil => exact Or.inr ⟨rfl, rfl, Or.inl rfl⟩
  | cons x q ih =>
    obtain ⟨a, block⟩ := x
    by_cases hstop : pos ≤ block.current_write_count
    · left
      refine ⟨[], a, block, q, pos, rfl, (Nat.zero_add pos).symm, hstop, fun hne => absurd rfl hne, ?_, ?_⟩
      · show seek_loop ((a, { block with current_read_count := 0 }) :: shelf q) pos = _
        unfold seek_loop
        rw [if_pos (by dsimp only; omega), Int.toNat_natCast]
        rfl
      · unfold after_seek
        rw [if_pos hstop]
    · have hloop : seek_loop (shelf ((a, block) :: q)) pos =
          ((a, { block with current_read_count := 0 }) ::
            (seek_loop (shelf q) (pos - block.current_write_count : Nat)).1,
            (seek_loop (shelf q) (pos - block.current_write_count : Nat)).2) := by
        show seek_loop ((a, { block with current_read_count := 0 }) :: shelf q) pos = _
        rw [seek_loop, if_neg (by dsimp only; omega)]
        dsimp only
        rw [Int.ofNat_sub (by omega)]
      have hafter : after_seek ((a, block) :: q) pos = after_seek q (pos - block.current_write_count) := by
        rw [after_seek, if_neg hstop]
      rcases ih (pos - block.current_write_count) with
        ⟨pre, b, found, post, k, rfl, hpos, hk, hpre, hseek, hahead⟩ | ⟨hseek, hahead, hshort⟩
      · left
        refine ⟨(a, block) :: pre, b, found, post, k, rfl, ?_, hk, fun _ => ?_, ?_, hafter.trans hahead⟩
        · rw [held_cons]
          dsimp only
          omega
        · by_contra hzero
          have hnil : pre = [] := by
            by_contra hne
            exact hzero (hpre hne)
          rw [hnil] at hpos
          have hnone : held [] = 0 := rfl
          omega
        · rw [hloop, hseek]
          rfl
      · right
        refine ⟨?_, hafter.trans hahead, Or.inr ?_⟩
        · rw [hloop, hseek]
          rfl
        · rw [held_cons]
          dsimp only
          rcases hshort with rfl | hshort
          · have hnone : held [] = 0 := rfl
            omega
          · omega

/-! ## The reader after a seek -/

theorem mseek_faces {h : MFile} (hsound : Sound h) : Faces (mseek h) (ahead (shelf h.head)) :=
  ⟨(mseek_same hsound).2, fun _ => ⟨rfl, fun _ hx => (mem_shelf hx).1, rfl⟩, nofun⟩

theorem mseek_pos_eq (h : MFile) (pos : Nat) : mseek_pos h pos =
    { mseek h with
      head := (seek_loop (shelf h.head) pos).1, current_read_p := (seek_loop (shelf h.head) pos).2 } := by
  have hloop : mseek_pos h pos = { mseek h with
      head := (seek_loop (shelf h.head) pos).1
      current_read_p := if (seek_loop (shelf h.head) pos).2.isSome then (seek_loop (shelf h.head) pos).2
        else none } := by
    unfold mseek_pos
    rw [if_neg (by omega)]
    rfl
  rw [hloop]
  cases hp : (seek_loop (shelf h.head) pos).2 with
  | none => rfl
  | some a => rfl

theorem mseek_pos_toNat (h : MFile) (pos : Int) : mseek_pos h pos = mseek_pos h pos.toNat := by
  have hpos : (if pos < 0 then 0 else pos) = if (pos.toNat : Int) < 0 then 0 else (pos.toNat : Int) := by
    rw [if_neg (by omega : ¬(pos.toNat : Int) < 0)]
    split
    · omega
    · omega
  unfold mseek_pos
  rw [hpos]

/-- A seek either finds its position or rewinds. -/
theorem mseek_pos_cases {h : MFile} (hsound : Sound h) (pos : Nat) :
    (∃ pre a block post k, h.head = pre ++ (a, block) :: post ∧ pos = held pre + k ∧
        k ≤ block.current_write_count ∧ (pre ≠ [] → 0 < k) ∧
        Place (mseek_pos h pos) (shelf pre) a { block with current_read_count := k } (shelf post) ∧
        (mseek_pos h pos).is_empty = false ∧
        sought h.head pos = ahead ((a, { block with current_read_count := k }) :: shelf post)) ∨
      (mseek_pos h pos = mseek h ∧ sought h.head pos = ahead (shelf h.head) ∧
        (h.head = [] ∨ held h.head < pos)) := by
  rcases seek_loop_spec h.head pos with ⟨pre, a, block, post, k, hhead, hpos, hk, hpre, hseek, hahead⟩ |
    ⟨hseek, hahead, hshort⟩
  · left
    have heq : mseek_pos h pos = { mseek h with
        head := shelf pre ++ (a, { block with current_read_count := k }) :: shelf post
        current_read_p := some a } := by
      rw [mseek_pos_eq, hseek]
    refine ⟨pre, a, block, post, k, hhead, hpos, hk, hpre, ⟨(mseek_pos_same hsound pos).2, ?_, ?_, hk, ?_⟩, ?_, ?_⟩
    · rw [heq]
    · rw [heq]
    · intro x hx
      exact (mem_shelf hx).1
    · rw [heq]
      rfl
    · rw [sought, hahead, Option.getD_some]
  · right
    refine ⟨?_, ?_, hshort⟩
    · rw [mseek_pos_eq, hseek]
      rfl
    · rw [sought, hahead, Option.getD_none]

theorem mseek_pos_faces {h : MFile} (hsound : Sound h) (pos : Nat) :
    Faces (mseek_pos h pos) (sought h.head pos) := by
  rcases mseek_pos_cases hsound pos with ⟨pre, a, block, post, k, _, _, _, _, hplace, hflag, hahead⟩ |
    ⟨heq, hahead, _⟩
  · have hfaces := hplace.faces (by rw [hflag]; exact nofun)
    rw [hflag] at hfaces
    rw [hahead]
    exact hfaces
  · rw [heq, hahead]
    exact mseek_faces hsound

/-! ## Reading to the end -/

/-- What reads should return when `left` is unread: each takes the first bytes of
    it, and `mgetc` gives 0 when there are none. `mread` returns -1 when there is
    no block at all. -/
def stream (blocks : Bool) (left : List UInt8) : Op → List UInt8 × Outcome
  | .mread len =>
    (left.drop len.toNat,
      .read (if blocks then (left.take len.toNat).length else -1) (left.take len.toNat))
  | .mgetc _ => (left.drop 1, .got (left.headD 0))
  | .mwrite _ _ => (left, .sought)
  | .mwrite_head _ _ => (left, .sought)
  | .mseek => (left, .sought)
  | .mseek_pos _ => (left, .sought)

def Op.Reads : Op → Prop
  | .mread _ => True
  | .mgetc _ => True
  | .mwrite _ _ => False
  | .mwrite_head _ _ => False
  | .mseek => False
  | .mseek_pos _ => False

instance : ∀ op : Op, Decidable op.Reads
  | .mread _ => .isTrue trivial
  | .mgetc _ => .isTrue trivial
  | .mwrite _ _ => .isFalse id
  | .mwrite_head _ _ => .isFalse id
  | .mseek => .isFalse id
  | .mseek_pos _ => .isFalse id

/-- The reader will get `left` and then find the end. -/
structure Streams (blocks : Bool) (h : MFile) (left : List UInt8) : Prop where
  faces : Faces h left
  solid : Solid h.head
  alert : Alert h
  within : Within h.head
  blocks : blocks = decide (h.head ≠ [])

theorem SameStore.blocks {h h' : MFile} (hsame : SameStore h h') :
    decide (h.head ≠ []) = decide (h'.head ≠ []) := by
  have hlength := congrArg List.length hsame.shelf
  simp only [mfile.shelf, List.length_map] at hlength
  rw [decide_eq_decide, ← List.length_pos_iff, ← List.length_pos_iff, hlength]

theorem exec_streams (alloc : Alloc) {blocks : Bool} {h : MFile} {left : List UInt8}
    (hstreams : Streams blocks h left) {op : Op} (hreads : op.Reads) :
    ∃ h', exec alloc h op = .ok (h', (stream blocks left op).2) ∧ Streams blocks h' (stream blocks left op).1 := by
  cases op with
  | mread len =>
    obtain ⟨h', hread, hsame, hleft, halert, hwithin⟩ := mread_faces hstreams.faces len
    have hblocks : (if h.head = [] then -1 else ((left.take len.toNat).length : Int)) =
        if blocks then ((left.take len.toNat).length : Int) else -1 := by
      rw [hstreams.blocks]
      by_cases hempty : h.head = []
      · simp [hempty]
      · simp [hempty]
    refine ⟨h', ?_, hleft (Or.inl hstreams.solid), hstreams.solid.of_same hsame,
      halert hstreams.solid hstreams.alert, hwithin hstreams.within, ?_⟩
    · simp only [exec, hread, ok_bind, stream, hblocks]
    · exact hstreams.blocks.trans hsame.blocks
  | mgetc beyond =>
    cases left with
    | nil =>
      refine ⟨h, ?_, hstreams⟩
      simp only [exec, mgetc_faces_nil hstreams.faces hstreams.solid hstreams.alert, ok_bind, stream,
        List.headD_nil]
    | cons c left =>
      obtain ⟨h', hread, hsame, hfaces, halert, hwithin⟩ := mgetc_faces hstreams.faces beyond
      refine ⟨h', ?_, hfaces, hstreams.solid.of_same hsame, halert, hwithin hstreams.within, ?_⟩
      · simp only [exec, hread, ok_bind, stream, List.headD_cons]
      · exact hstreams.blocks.trans hsame.blocks
  | mwrite data len => exact hreads.elim
  | mwrite_head data len => exact hreads.elim
  | mseek => exact hreads.elim
  | mseek_pos pos => exact hreads.elim

theorem legal_of_mem {blocks : Bool} {left : List UInt8} {ops : List Op} (hreads : ∀ op ∈ ops, op.Reads) :
    Legal (stream blocks) (fun _ op => op.Reads) left ops := by
  induction ops generalizing left with
  | nil => trivial
  | cons op ops ih =>
    exact ⟨hreads op List.mem_cons_self, ih fun other hother => hreads other (List.mem_cons_of_mem op hother)⟩

theorem run_streams (alloc : Alloc) {blocks : Bool} {h : MFile} {left : List UInt8}
    (hstreams : Streams blocks h left) {ops : List Op} (hreads : ∀ op ∈ ops, op.Reads) :
    ∃ h', run (exec alloc) h ops = .ok (h', (runTotal (stream blocks) left ops).2) ∧
      Streams blocks h' (runTotal (stream blocks) left ops).1 := by
  refine run_refines (Streams blocks) ?_ hstreams
    (guarded_of_forall fun _ _ => trivial : Guarded _ (fun _ _ => True) _ _)
    (legal_of_mem hreads)
  intro h left op hstreams _ hop
  exact exec_streams alloc hstreams hop

theorem mseek_streams {h : MFile} (hlayout : Layout h) :
    Streams (decide (h.head ≠ [])) (mseek h) (content h) := by
  obtain ⟨hsame, hsound⟩ := mseek_same hlayout.sound
  have hsolid := hlayout.solid.of_same hsame
  have hahead : ahead (shelf h.head) = content h :=
    (ahead_eq_contents hsolid fun _ hx => (mem_shelf hx).1).trans (contents_shelf h.head)
  refine ⟨hahead ▸ mseek_faces hlayout.sound, hsolid, nofun, fun x hx => ?_, ?_⟩
  · rw [(mem_shelf hx).1]
    exact Nat.zero_le _
  · exact hsame.blocks

/-- After a rewind, from whatever state calls led to, reads return the content
    from its start in consecutive pieces of the lengths asked for. -/
theorem mseek_replays {alloc : Alloc} (halloc : ∀ n, (alloc n).isSome) {size : Nat} (hsize : 1 ≤ size)
    {af fe : Bool} {h h' : MFile} (hopen : mopen alloc size af fe = .ok (some h)) {calls : List Call}
    {replies : List Reply} (hcovered : ∀ call ∈ calls, call.Covered) (hnonempty : ∀ call ∈ calls, call.Nonempty)
    (hrun : run (perform alloc) h calls = .ok (h', replies)) {ops : List Op} (hreads : ∀ op ∈ ops, op.Reads) :
    ∃ h'', run (exec alloc) (mseek h') ops =
      .ok (h'', (runTotal (stream (h'.head ≠ [])) (stored size calls) ops).2) := by
  obtain ⟨hlayout, _, hstored⟩ := layout_along_run halloc hsize hopen hcovered hnonempty hrun
  obtain ⟨h'', hall, _⟩ := run_streams alloc (mseek_streams hlayout) hreads
  rw [hstored] at hall
  exact ⟨h'', hall⟩

/-- Three bytes were read as a line before the rewind. -/
theorem mseek_replays_blocks :
    ∃ h h' replies h'', mopen (fun _ => some fun _ => 0) 2 true true = .ok (some h) ∧
      run (perform fun _ => some fun _ => 0) h [.op (.mwrite [1, 2, 10, 4, 5] 5), .op (.mwrite_head [9] 1),
        .mread_line [0, 0, 0, 0, 0, 0, 0] 7 fun _ => 0, .op (.mgetc 0)] = .ok (h', replies) ∧
      run (exec fun _ => some fun _ => 0) (mseek h') [.mread 4, .mread 0, .mread 9] =
        .ok (h'', [.read 4 [9, 1, 2, 10], .read 0 [], .read 2 [4, 5]]) := by
  have hopen : mopen (fun _ => some fun _ => 0) 2 true true = .ok (some (new_handle 2 true)) := rfl
  obtain ⟨h', replies, hrun, hhead⟩ := run_of_view (fun h : MFile => decide (h.head ≠ []))
    (by decide +kernel : (run (perform fun _ => some fun _ => 0) (new_handle 2 true)
      [.op (.mwrite [1, 2, 10, 4, 5] 5), .op (.mwrite_head [9] 1),
        .mread_line [0, 0, 0, 0, 0, 0, 0] 7 fun _ => 0, .op (.mgetc 0)]).toOption.map
        (fun r => decide (r.1.head ≠ [])) = some true)
  obtain ⟨h'', hall⟩ := mseek_replays (by simp) (by decide) hopen
    (by decide : ∀ call ∈ _, Call.Covered call) (by decide : ∀ call ∈ _, Call.Nonempty call) hrun
    (by decide : ∀ op ∈ [Op.mread 4, .mread 0, .mread 9], op.Reads)
  rw [hhead] at hall
  exact ⟨_, h', replies, h'', hopen, hrun, hall⟩

/-! ## Reading from a position -/

/-- There is no block, or the position is 0 or strictly inside a block. -/
def Inside (q : Tailq DataBlock) (pos : Nat) : Prop :=
  q = [] ∨ pos = 0 ∨ ∃ pre x post, q = pre ++ x :: post ∧ held pre < pos ∧
    pos < held pre + x.2.current_write_count

theorem held_append (q q' : Tailq DataBlock) : held (q ++ q') = held q + held q' := by
  unfold held
  rw [List.map_append, List.sum_append]

/-- A seek to a position inside stops before the end of its block. -/
theorem Inside.lt {q pre post : Tailq DataBlock} {x : Nat × DataBlock} {pos k : Nat} (hinside : Inside q pos)
    (hsolid : Solid q) (hq : q = pre ++ x :: post) (hpos : pos = held pre + k)
    (hk : k ≤ x.2.current_write_count) : k < x.2.current_write_count := by
  have hpositive := hsolid x (by simp [hq])
  rcases hinside with hnil | hzero | ⟨pre', y, post', hq', habove, hbelow⟩
  · simp [hq] at hnil
  · omega
  · rw [hq] at hq'
    rcases List.append_eq_append_iff.mp hq' with ⟨between, hpre, hcut⟩ | ⟨between, hpre, hcut⟩
    · cases between with
      | nil =>
        obtain ⟨rfl, _⟩ := List.cons.inj hcut
        rw [hpre, List.append_nil] at hbelow
        omega
      | cons z between =>
        obtain ⟨rfl, _⟩ := List.cons.inj hcut
        rw [hpre, held_append, held_cons] at habove
        omega
    · cases between with
      | nil =>
        obtain ⟨rfl, _⟩ := List.cons.inj hcut
        rw [hpre, List.append_nil] at hpos
        omega
      | cons z between =>
        obtain ⟨rfl, _⟩ := List.cons.inj hcut
        rw [hpre, held_append, held_cons] at hpos
        omega

/-- Dropping up to a position in a block. -/
theorem drop_contents {size : Nat} {pre post : Tailq DataBlock} {a k : Nat} {block : DataBlock}
    (hsized : ∀ x ∈ pre ++ (a, block) :: post, x.2.Sized size) (hk : k ≤ block.current_write_count) :
    (contents (pre ++ (a, block) :: post)).drop (held pre + k) = block.written.drop k ++ contents post := by
  have hpre := length_contents fun x hx => hsized x (List.mem_append_left _ hx)
  have hblock := (hsized (a, block) (by simp)).length_written
  dsimp only at hblock
  rw [contents_append, contents_cons, ← List.drop_drop, List.drop_left' hpre,
    List.drop_append_of_le_length (by dsimp only; omega)]

/-- A seek to a position inside has exactly the rest of the content ahead. -/
theorem sought_of_inside {h : MFile} (hlayout : Layout h) {pos : Nat} (hinside : Inside h.head pos) :
    sought h.head pos = (content h).drop pos := by
  have hshelf : ∀ q : Tailq DataBlock, (∀ x ∈ q, x ∈ h.head) → ahead (shelf q) = contents q := by
    intro q hq
    refine (ahead_eq_contents ?_ fun _ hx => (mem_shelf hx).1).trans (contents_shelf q)
    intro x hx
    obtain ⟨_, y, hy, hcount⟩ := mem_shelf hx
    rw [← hcount]
    exact hlayout.solid y (hq y hy)
  rcases mseek_pos_cases hlayout.sound pos with
    ⟨pre, a, block, post, k, hhead, hpos, hk, _, _, _, hahead⟩ | ⟨_, hahead, hshort⟩
  · have hlt := hinside.lt hlayout.solid hhead hpos hk
    rw [hahead, ahead_cons_pos hlt, hshelf post fun x hx => by simp [hhead, hx], content, hhead, hpos,
      drop_contents (fun x hx => hlayout.sound.sized x (hhead ▸ hx)) hk]
    rfl
  · rw [hahead, hshelf h.head fun _ => id]
    rcases hinside with hempty | rfl | ⟨pre, x, post, hhead, _, hbelow⟩
    · rw [content, hempty, contents_nil, List.drop_nil]
    · rfl
    · rcases hshort with hempty | hshort
      · simp [hhead] at hempty
      · rw [hhead, held_append, held_cons] at hshort
        omega

theorem mseek_pos_streams {h : MFile} (hlayout : Layout h) {pos : Nat} (hinside : Inside h.head pos) :
    Streams (decide (h.head ≠ [])) (mseek_pos h pos) ((content h).drop pos) := by
  have hleft := sought_of_inside hlayout hinside
  have hfaces := mseek_pos_faces hlayout.sound pos
  rw [hleft] at hfaces
  rcases mseek_pos_cases hlayout.sound pos with
    ⟨pre, a, block, post, k, hhead, hpos, hk, _, hplace, _, _⟩ | ⟨heq, hahead, _⟩
  · obtain ⟨hsame, _⟩ := mseek_pos_same hlayout.sound pos
    have hlt := hinside.lt hlayout.solid hhead hpos hk
    refine ⟨hfaces, hlayout.solid.of_same hsame, hplace.alert.mpr fun _ => hlt, ?_, hsame.blocks⟩
    intro x hx
    rw [hplace.head] at hx
    rcases List.mem_append.mp hx with hx | hx
    · rw [(mem_shelf hx).1]
      exact Nat.zero_le _
    rcases List.mem_cons.mp hx with rfl | hx
    · exact hk
    · rw [(mem_shelf hx).1]
      exact Nat.zero_le _
  · have hrewound := mseek_streams hlayout
    rw [heq] at hfaces ⊢
    exact ⟨hfaces, hrewound.solid, hrewound.alert, hrewound.within, hrewound.blocks⟩

/-- A seek to a position that is not inside leaves the reader behind the last
    byte of a block that does not count as empty, or at the start. -/
theorem mseek_pos_not_inside {h : MFile} (hsound : Sound h) {pos : Nat} (hnot : ¬Inside h.head pos) :
    (∃ pre a block post, Place (mseek_pos h pos) pre a block post ∧ (mseek_pos h pos).is_empty = false ∧
        block.current_read_count = block.current_write_count ∧ sought h.head pos = []) ∨
      (mseek_pos h pos = mseek h ∧ held h.head < pos) := by
  rcases mseek_pos_cases hsound pos with
    ⟨pre, a, block, post, k, hhead, hpos, hk, hpre, hplace, hflag, hahead⟩ | ⟨heq, _, hshort⟩
  · have hdry : k = block.current_write_count := by
      by_contra hne
      by_cases hzero : k = 0
      · have hnil : pre = [] := by
          by_contra hne
          have hpositive := hpre hne
          omega
        rw [hnil, hzero] at hpos
        exact hnot (Or.inr (Or.inl hpos))
      · exact hnot (Or.inr (Or.inr ⟨pre, _, post, hhead, by omega, by dsimp only; omega⟩))
    refine Or.inl ⟨_, a, _, _, hplace, hflag, hdry, ?_⟩
    rw [hahead]
    exact ahead_cons_neg (Nat.le_of_eq hdry.symm)
  · rcases hshort with hempty | hshort
    · exact absurd (Or.inl hempty) hnot
    · exact Or.inr ⟨heq, hshort⟩

/-- A reader that stands behind the last byte of its block and does not know it
    reads beyond it. -/
theorem mgetc_overreads {h : MFile} {pre post : Tailq DataBlock} {a : Nat} {block : DataBlock}
    (hplace : Place h pre a block post) (hflag : h.is_empty = false)
    (hdry : block.current_read_count = block.current_write_count) (beyond : UInt8) :
    ∃ h' c, mgetc h beyond = .ok (h', c) ∧ ¬Within h'.head := by
  have hstart : read_start h = some a := by
    unfold read_start
    rw [hplace.pointer, Option.isNone_some, if_neg (by decide)]
  have hsame : { h with current_read_p := some a } = h := by rw [← hplace.pointer]
  have hadvance : read_advance h = .ok (some h) := by
    unfold read_advance
    rw [if_neg (by rw [hflag]; decide)]
  unfold mgetc
  rw [hstart]
  dsimp only
  rw [hsame, hadvance, ok_bind]
  dsimp only
  rw [hplace.read, ok_bind]
  refine ⟨_, _, rfl, fun hwithin => ?_⟩
  have hhead := consume_split hplace.head hplace.sound.nodup hplace.pointer 1
  have hle := hwithin (a, { block with current_read_count := block.current_read_count + 1 }) (by simp [hhead])
  dsimp only at hle
  omega

/-- After a seek the reader has exactly the content from the position on before
    it, and never reads beyond a block, if and only if there is no block or the
    position is 0 or strictly inside a block. -/
theorem mseek_pos_exact_iff {alloc : Alloc} (halloc : ∀ n, (alloc n).isSome) {size : Nat} (hsize : 1 ≤ size)
    {af fe : Bool} {h h' : MFile} (hopen : mopen alloc size af fe = .ok (some h)) {calls : List Call}
    {replies : List Reply} (hcovered : ∀ call ∈ calls, call.Covered) (hnonempty : ∀ call ∈ calls, call.Nonempty)
    (hrun : run (perform alloc) h calls = .ok (h', replies)) (pos : Nat) :
    (∀ ops : List Op, (∀ op ∈ ops, op.Reads) → ∃ h'', run (exec alloc) (mseek_pos h' pos) ops =
        .ok (h'', (runTotal (stream (h'.head ≠ [])) ((stored size calls).drop pos) ops).2) ∧ Within h''.head) ↔
      Inside h'.head pos := by
  obtain ⟨hlayout, _, hstored⟩ := layout_along_run halloc hsize hopen hcovered hnonempty hrun
  rw [← hstored]
  constructor
  · intro hexact
    by_contra hnot
    rcases mseek_pos_not_inside hlayout.sound hnot with ⟨pre, a, block, post, hplace, hflag, hdry, _⟩ | ⟨heq, hfar⟩
    · obtain ⟨h₁, c, hget, hover⟩ := mgetc_overreads hplace hflag hdry 0
      obtain ⟨h₂, hone, hwithin⟩ := hexact [.mgetc 0] (by simp [Op.Reads])
      obtain ⟨h₃, _, _, hexec, hnil, _⟩ := run_cons_eq_ok_iff.mp hone
      simp only [exec, hget, ok_bind, Except.ok.injEq, Prod.mk.injEq] at hexec
      obtain ⟨rfl, _⟩ := by simpa using hnil
      exact hover (hexec.1 ▸ hwithin)
    · -- the position is behind everything, and the seek only rewound
      have hlen := length_contents hlayout.sound.sized
      have hnone : (content h').drop pos = [] := List.drop_of_length_le (by unfold content; omega)
      obtain ⟨h₁, hrest, _⟩ := hexact [.mread 1] (by simp [Op.Reads])
      obtain ⟨h₂, hall, _⟩ := run_streams alloc (mseek_streams hlayout)
        (by simp [Op.Reads] : ∀ op ∈ [Op.mread 1], op.Reads)
      rw [heq, hall, hnone] at hrest
      obtain ⟨_, _, hnil⟩ := by simpa [runTotal, stream] using hrest
      cases hq : h'.head with
      | nil => exact hnot (Or.inl hq)
      | cons x q =>
        have hpositive := hlayout.solid x (by simp [hq])
        have hwritten := (hlayout.sound.sized x (by simp [hq])).length_written
        rw [content, hq, contents_cons, List.append_eq_nil_iff] at hnil
        rw [hnil.1, List.length_nil] at hwritten
        omega
  · intro hinside ops hreads
    obtain ⟨h'', hall, hstreams⟩ := run_streams alloc (mseek_pos_streams hlayout hinside) hreads
    exact ⟨h'', hall, hstreams.within⟩

theorem mseek_pos_exact_inside :
    ∃ h h' replies h'', mopen (fun _ => some fun _ => 0) 2 true true = .ok (some h) ∧
      run (perform fun _ => some fun _ => 0) h [.op (.mwrite [1, 2, 3, 4] 4)] = .ok (h', replies) ∧
      run (exec fun _ => some fun _ => 0) (mseek_pos h' 3) [.mread 5, .mgetc 0] =
        .ok (h'', [.read 1 [4], .got 0]) := by
  have hopen : mopen (fun _ => some fun _ => 0) 2 true true = .ok (some (new_handle 2 true)) := rfl
  obtain ⟨h', replies, hrun, hcounts⟩ := run_of_view (fun h : MFile => h.head.map fun x => x.2.current_write_count)
    (by decide +kernel : (run (perform fun _ => some fun _ => 0) (new_handle 2 true)
      [.op (.mwrite [1, 2, 3, 4] 4)]).toOption.map (fun r => r.1.head.map fun x => x.2.current_write_count) =
        some [2, 2])
  obtain ⟨x, q, hhead, hx, hq⟩ := List.map_eq_cons_iff.mp hcounts
  obtain ⟨y, q, rfl, hy, _⟩ := List.map_eq_cons_iff.mp hq
  have hinside : Inside h'.head 3 := by
    refine Or.inr (Or.inr ⟨[x], y, q, hhead, ?_, ?_⟩)
    · simp [held, hx]
    · simp [held, hx, hy]
  obtain ⟨h'', hall, _⟩ := (mseek_pos_exact_iff (by simp) (by decide) hopen (by decide) (by decide) hrun 3).mpr
    hinside [.mread 5, .mgetc 0] (by decide)
  refine ⟨_, h', replies, h'', hopen, hrun, ?_⟩
  rw [hhead] at hall
  exact hall

/-- At the end of the first block nothing is read although two bytes follow. -/
theorem mseek_pos_stops_at_boundary :
    ∃ h h' replies h'', mopen (fun _ => some fun _ => 0) 2 true true = .ok (some h) ∧
      run (perform fun _ => some fun _ => 0) h [.op (.mwrite [1, 2, 3, 4] 4)] = .ok (h', replies) ∧
      content h' = [1, 2, 3, 4] ∧ mread (mseek_pos h' 2) 1 = .ok (h'', 0, []) ∧
      [] ≠ ((content h').drop 2).take 1 := by
  have hopen : mopen (fun _ => some fun _ => 0) 2 true true = .ok (some (new_handle 2 true)) := rfl
  obtain ⟨h', replies, hrun, hview⟩ := run_of_view
    (fun h : MFile => (content h, (mread (mseek_pos h 2) 1).toOption.map Prod.snd))
    (by decide +kernel : (run (perform fun _ => some fun _ => 0) (new_handle 2 true)
      [.op (.mwrite [1, 2, 3, 4] 4)]).toOption.map
        (fun r => (content r.1, (mread (mseek_pos r.1 2) 1).toOption.map Prod.snd)) =
        some ([1, 2, 3, 4], some (0, [])))
  obtain ⟨hcontent, hread⟩ := Prod.mk.inj hview
  obtain ⟨⟨h'', result⟩, hresult, rfl⟩ := eq_ok_of_view Prod.snd hread
  exact ⟨_, h', replies, h'', hopen, hrun, hcontent, hresult, by rw [hcontent]; decide⟩

end code_tools.mfile
