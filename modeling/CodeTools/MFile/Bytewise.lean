import CodeTools.MFile.Seeking

/-!
# One byte at a time

`mgetc` does not test whether its block has an unread byte. The calls keep a
state in which it has one whenever the reader does not step to another block.
-/

namespace code_tools.mfile

open cmem machine

/-- No block is empty, and the reader's block has an unread byte unless it counts
    as empty. A block may count as empty although bytes were added to it. -/
structure Poised (h : MFile) : Prop where
  sound : Sound h
  solid : Solid h.head
  unstarted : h.current_read_p = none → h.is_empty = false ∧ ∀ x ∈ h.head, x.2.current_read_count = 0
  started : ∀ a, h.current_read_p = some a → ∃ pre block post, Place h pre a block post ∧
    (h.is_empty = false → block.current_read_count < block.current_write_count)

theorem Place.poised {h : MFile} {pre post : Tailq DataBlock} {a : Nat} {block : DataBlock}
    (hplace : Place h pre a block post) (hsolid : Solid h.head)
    (hmore : h.is_empty = false → block.current_read_count < block.current_write_count) : Poised h := by
  refine ⟨hplace.sound, hsolid, ?_, ?_⟩
  · intro hnone
    rw [hplace.pointer] at hnone
    cases hnone
  · intro b hb
    obtain rfl : a = b := Option.some.inj (hplace.pointer.symm.trans hb)
    exact ⟨pre, block, post, hplace, hmore⟩

/-- Where the reader stands once it has started. -/
theorem Poised.start {h : MFile} (hpoised : Poised h) {a : Nat} (hstart : read_start h = some a) :
    ∃ pre block post, Place { h with current_read_p := some a } pre a block post ∧
      (h.is_empty = false → block.current_read_count < block.current_write_count) := by
  have hsound := hpoised.sound.read_start hstart
  unfold read_start at hstart
  cases hp : h.current_read_p with
  | none =>
    obtain ⟨_, hunread⟩ := hpoised.unstarted hp
    rw [hp, Option.isNone_none, if_pos rfl] at hstart
    obtain ⟨x, hx, rfl⟩ := Option.map_eq_some_iff.mp hstart
    obtain ⟨rest, hhead⟩ := List.head?_eq_some_iff.mp hx
    have hzero := hunread x (by simp [hhead])
    have hpos := hpoised.solid x (by simp [hhead])
    refine ⟨[], x.2, rest, ⟨hsound, rfl, hhead, by omega, fun y hy => hunread y (by simp [hhead, hy])⟩, fun _ => ?_⟩
    rw [hzero]
    exact hpos
  | some b =>
    rw [hp, Option.isNone_some] at hstart
    obtain rfl : b = a := Option.some.inj hstart
    have hsame : { h with current_read_p := some b } = h := by rw [← hp]
    rw [hsame]
    exact hpoised.started b hp

/-! ## The two readers -/

/-- How many bytes of the blocks were read. -/
def bytes_read (h : MFile) : Nat := (h.head.map (·.2.current_read_count)).sum

theorem Place.bytes_read_consume {h : MFile} {pre post : Tailq DataBlock} {a : Nat} {block : DataBlock}
    (hplace : Place h pre a block post) (count : Nat) :
    bytes_read (mfile.consume h block count) = bytes_read h + count := by
  unfold bytes_read
  rw [consume_split hplace.head hplace.sound.nodup hplace.pointer count, hplace.head]
  simp only [List.map_append, List.map_cons, List.sum_append, List.sum_cons]
  omega

/-- In such a state both readers take the same byte, or both find nothing. -/
theorem Poised.readers {h : MFile} (hpoised : Poised h) (beyond : UInt8) :
    (∃ h' b, mread h 1 = .ok (h', 1, [b]) ∧ mgetc h beyond = .ok (h', b) ∧
        bytes_read h' = bytes_read h + 1 ∧ Poised h') ∨
      (∃ h' rc, rc ≤ 0 ∧ mread h 1 = .ok (h', rc, []) ∧ mgetc h beyond = .ok (h', 0) ∧ h'.head = h.head ∧
        Poised h') := by
  unfold mread mgetc
  cases hstart : read_start h with
  | none => exact Or.inr ⟨h, -1, by decide, rfl, rfl, rfl, hpoised⟩
  | some a =>
    obtain ⟨pre, block, post, hplace, hmore⟩ := hpoised.start hstart
    obtain ⟨h₀, hh₀⟩ : ∃ h₀, h₀ = { h with current_read_p := some a } := ⟨_, rfl⟩
    have hhead₀ : h₀.head = h.head := by rw [hh₀]
    have hflag : h₀.is_empty = h.is_empty := by rw [hh₀]
    have hone : (1 : Int).toNat = 0 + 1 := rfl
    dsimp only
    rw [← hh₀] at hplace ⊢
    rw [← hflag] at hmore
    rw [hone]
    unfold mread_loop
    rw [if_pos (by decide)]
    dsimp only
    rcases hplace.advance with ⟨hnone, hempty, _⟩ |
      ⟨h₁, pre₁, a₁, block₁, post₁, hnext, hplace₁, hsame₁, hflag₁, hhead₁, hcoming⟩
    · rw [hnone, ok_bind, ok_bind]
      refine Or.inr ⟨h₀, 0, by decide, rfl, rfl, hhead₀, hplace.poised (hhead₀ ▸ hpoised.solid) hmore⟩
    · have hfresh := hplace.fresh (hhead₀ ▸ hpoised.solid) hmore hcoming
      have hle := hplace₁.sized.le
      have hbuffer := hplace₁.sized.length
      have hrest : ((1 : Int) - (([] : List UInt8).length : Int)).toNat = 1 := by decide
      have hbyte : (block₁.data.drop block₁.current_read_count).take 1 =
          [block₁.data.getD block₁.current_read_count beyond] := by
        rw [List.drop_eq_getElem_cons (by omega), List.take_succ_cons, List.take_zero,
          List.getD_eq_getElem?_getD, List.getElem?_eq_getElem (by omega), Option.getD_some]
      obtain ⟨hsame₂, hplace₂, _⟩ := hplace₁.consume
        (by omega : block₁.current_read_count + 1 ≤ block₁.current_write_count)
      have hcount := hplace₁.bytes_read_consume 1
      rw [hnext, ok_bind, ok_bind]
      dsimp only
      rw [hplace₁.read, ok_bind, ok_bind, if_neg (by omega), hrest, if_pos (by omega), slice_eq (by omega), ok_bind,
        hbyte]
      refine Or.inl ⟨_, _, rfl, rfl, ?_, hplace₂.poised ?_ fun hfalse => ?_⟩
      · rw [hcount]
        unfold bytes_read
        rw [hhead₁, hhead₀]
      · refine Solid.of_same ?_ hsame₂
        rw [hhead₁, hhead₀]
        exact hpoised.solid
      · have hne := of_decide_eq_false hfalse
        dsimp only
        omega

/-! ## The calls keep the state -/

theorem Poised.mread {h : MFile} (hpoised : Poised h) (len : Int) :
    ∃ h' rc bytes, mfile.mread h len = .ok (h', rc, bytes) ∧ Poised h' := by
  unfold mfile.mread
  cases hstart : read_start h with
  | none => exact ⟨h, -1, [], rfl, hpoised⟩
  | some a =>
    obtain ⟨pre, block, post, hplace, hmore⟩ := hpoised.start hstart
    have hfuel : len ≤ (([] : List UInt8).length : Int) + len.toNat := by
      rw [List.length_nil]
      omega
    obtain ⟨h', pre', a', block', post', hloop, htook⟩ := mread_loop_ahead hplace rfl rfl hfuel
    have hsolid : Solid { h with current_read_p := some a }.head := hpoised.solid
    dsimp only
    rw [hloop, ok_bind]
    exact ⟨h', _, _, rfl, htook.place.poised (hsolid.of_same htook.same) (htook.alert hsolid hmore)⟩

theorem Poised.mgetc {h : MFile} (hpoised : Poised h) (beyond : UInt8) :
    ∃ h' c, mfile.mgetc h beyond = .ok (h', c) ∧ Poised h' := by
  rcases hpoised.readers beyond with ⟨h', b, _, hget, _, hpoised'⟩ | ⟨h', _, _, _, hget, _, hpoised'⟩
  · exact ⟨h', b, hget, hpoised'⟩
  · exact ⟨h', 0, hget, hpoised'⟩

theorem Poised.mseek {h : MFile} (hpoised : Poised h) : Poised (mfile.mseek h) := by
  obtain ⟨hsame, hsound⟩ := mseek_same hpoised.sound
  exact ⟨hsound, hpoised.solid.of_same hsame, fun _ => ⟨rfl, fun _ hx => (mem_shelf hx).1⟩, nofun⟩

/-- A block that bytes may be added to, and new blocks behind it. -/
theorem Chunks.place {q q' : Tailq DataBlock} {bytes : List UInt8} (hchunks : Chunks q q' bytes)
    {pre post : Tailq DataBlock} {a : Nat} {block : DataBlock} (hq : q = pre ++ (a, block) :: post)
    (hlater : ∀ x ∈ post, x.2.current_read_count = 0) :
    ∃ block' post', q' = pre ++ (a, block') :: post' ∧ block'.current_read_count = block.current_read_count ∧
      block.written <+: block'.written ∧ ∀ x ∈ post', x.2.current_read_count = 0 := by
  induction hchunks generalizing block post with
  | nil q => exact ⟨block, post, hq, rfl, List.prefix_rfl, hlater⟩
  | cons hchunk _ ih =>
    obtain ⟨before, b, old, new, hold, hnew, hwritten, hread⟩ := hchunk
    rw [hold] at hq
    -- the block that grows is new, or it is the reader's, or it comes after it
    have hgrown : ∃ block₁ post₁, before ++ [(b, new)] = pre ++ (a, block₁) :: post₁ ∧
        block₁.current_read_count = block.current_read_count ∧ block.written <+: block₁.written ∧
        ∀ x ∈ post₁, x.2.current_read_count = 0 := by
      cases old with
      | none =>
        have hbefore : before = pre ++ (a, block) :: post := by simpa using hq
        refine ⟨block, post ++ [(b, new)], by rw [hbefore]; simp, rfl, List.prefix_rfl, fun x hx => ?_⟩
        rcases List.mem_append.mp hx with hpost | hlast
        · exact hlater x hpost
        · obtain rfl := List.mem_singleton.mp hlast
          exact hread
      | some last =>
        have hq : before ++ [(b, last)] = pre ++ (a, block) :: post := hq
        rcases List.eq_nil_or_concat post with rfl | ⟨middle, x, rfl⟩
        · obtain ⟨rfl, hlast⟩ := List.append_inj' hq rfl
          obtain ⟨rfl, rfl⟩ := Prod.mk.inj (List.cons.inj hlast).1
          exact ⟨new, [], rfl, hread, ⟨_, hwritten.symm⟩, nofun⟩
        · have hq : before ++ [(b, last)] = (pre ++ (a, block) :: middle) ++ [x] := by
            rw [hq]
            simp
          obtain ⟨rfl, hlast⟩ := List.append_inj' hq rfl
          obtain rfl := (List.cons.inj hlast).1
          refine ⟨block, middle ++ [(b, new)], by simp, rfl, List.prefix_rfl, fun x hx => ?_⟩
          rcases List.mem_append.mp hx with hmiddle | hnew
          · exact hlater x (by simp [hmiddle])
          · obtain rfl := List.mem_singleton.mp hnew
            exact hread.trans (hlater (b, last) (by simp))
    obtain ⟨block₁, post₁, hq₁, hread₁, hwritten₁, hlater₁⟩ := hgrown
    obtain ⟨block', post', hq', hread', hwritten', hlater'⟩ := ih (hnew.trans hq₁) hlater₁
    exact ⟨block', post', hq', hread'.trans hread₁, hwritten₁.trans hwritten', hlater'⟩

theorem Poised.mwrite {alloc : Alloc} {h h' : MFile} (hpoised : Poised h) (hsize : 0 < h.DATA_BLOCK_SIZE)
    {data : List UInt8} {len rc : Int} (hdata : len ≤ data.length)
    (hwrite : mfile.mwrite alloc h data len = .ok (h', rc)) : Poised h' := by
  obtain ⟨h₁, rc₁, count, hwrite₁, hwrote, hchunks⟩ := mwrite_wrote alloc hpoised.sound hsize hdata
  obtain ⟨rfl, rfl⟩ := ok_inj hwrite₁ hwrite
  have hpointer : h₁.current_read_p = h.current_read_p := hwrote.untouched.current_read_p
  have hflag : h₁.is_empty = h.is_empty := hwrote.untouched.is_empty
  refine ⟨hwrote.sound, hwrote.solid hpoised.solid, ?_, ?_⟩
  · intro hnone
    obtain ⟨hempty, hunread⟩ := hpoised.unstarted (hpointer.symm.trans hnone)
    exact ⟨hflag.trans hempty, hchunks.unread hunread⟩
  · intro a ha
    obtain ⟨pre, block, post, hplace, hmore⟩ := hpoised.started a (hpointer.symm.trans ha)
    obtain ⟨block', post', hhead, hread, hwritten, hlater⟩ := hchunks.place hplace.head hplace.later
    have hle := hwritten.length_le
    have hsized : block'.Sized h₁.DATA_BLOCK_SIZE := hwrote.sound.sized (a, block') (by simp [hhead])
    rw [hplace.sized.length_written, hsized.length_written] at hle
    have hwithin := hplace.le
    refine ⟨pre, block', post', ⟨hwrote.sound, ha, hhead, by omega, hlater⟩, fun hempty => ?_⟩
    have hless := hmore (hflag.symm.trans hempty)
    omega

theorem Poised.mwrite_head {alloc : Alloc} {h h' : MFile} (hpoised : Poised h) {data : List UInt8} {len rc : Int}
    (hpos : 1 ≤ len) (hsound : Sound h') (hwrite : mfile.mwrite_head alloc h data len = .ok (h', rc)) :
    Poised h' := by
  obtain ⟨⟨hpointer, hflag, _⟩, _⟩ := mwrite_head_cases hwrite
  -- whatever stands before the reader's block, its followers stay
  obtain ⟨before, hhead, hbefore⟩ := mwrite_head_front hwrite
  refine ⟨hsound, ?_, ?_, ?_⟩
  · intro x hx
    rw [hhead] at hx
    rcases List.mem_append.mp hx with hnew | hold
    · have hcount := (hbefore x hnew).2.1
      omega
    · exact hpoised.solid x hold
  · intro hnone
    obtain ⟨hempty, hunread⟩ := hpoised.unstarted (hpointer.symm.trans hnone)
    refine ⟨hflag.trans hempty, fun x hx => ?_⟩
    rw [hhead] at hx
    rcases List.mem_append.mp hx with hnew | hold
    · exact (hbefore x hnew).2.2
    · exact hunread x hold
  · intro a ha
    obtain ⟨pre, block, post, hplace, hmore⟩ := hpoised.started a (hpointer.symm.trans ha)
    refine ⟨before ++ pre, block, post, ⟨hsound, ha, ?_, hplace.le, hplace.later⟩, fun hempty =>
      hmore (hflag.symm.trans hempty)⟩
    rw [hhead, hplace.head, List.append_assoc]

/-! ## Every reachable state -/

/-- A call of the functions that go on from where the last one stopped, and
    `mseek`. -/
def Call.Sequential : Call → Prop
  | .op (.mwrite _ _) => True
  | .op (.mwrite_head _ _) => True
  | .op (.mread _) => True
  | .op (.mgetc _) => True
  | .op .mseek => True
  | .op (.mseek_pos _) => False
  | .mread_line _ _ _ => False

instance : ∀ call : Call, Decidable call.Sequential
  | .op (.mwrite _ _) => .isTrue trivial
  | .op (.mwrite_head _ _) => .isTrue trivial
  | .op (.mread _) => .isTrue trivial
  | .op (.mgetc _) => .isTrue trivial
  | .op .mseek => .isTrue trivial
  | .op (.mseek_pos _) => .isFalse id
  | .mread_line _ _ _ => .isFalse id

theorem Poised.perform {alloc : Alloc} {h h' : MFile} (hpoised : Poised h) (hsize : 0 < h.DATA_BLOCK_SIZE)
    {call : Call} (hsequential : call.Sequential) (hcovered : call.Covered) (hnonempty : call.Nonempty)
    {reply : Reply} (hperform : mfile.perform alloc h call = .ok (h', reply)) : Poised h' := by
  have hsound := (perform_sound hpoised.sound hsize hcovered hperform).1
  cases call with
  | mread_line buf n beyond => exact hsequential.elim
  | op op =>
    cases op with
    | mwrite data len =>
      obtain ⟨rc, hwrite⟩ := perform_mwrite hperform
      exact hpoised.mwrite hsize hcovered hwrite
    | mwrite_head data len =>
      obtain ⟨rc, hwrite⟩ := perform_mwrite_head hperform
      exact hpoised.mwrite_head hnonempty hsound hwrite
    | mread len =>
      obtain ⟨h₁, rc, bytes, hread, hpoised'⟩ := hpoised.mread len
      simp only [mfile.perform, exec, hread, ok_bind, Except.ok.injEq, Prod.mk.injEq] at hperform
      exact hperform.1 ▸ hpoised'
    | mgetc beyond =>
      obtain ⟨h₁, c, hget, hpoised'⟩ := hpoised.mgetc beyond
      simp only [mfile.perform, exec, hget, ok_bind, Except.ok.injEq, Prod.mk.injEq] at hperform
      exact hperform.1 ▸ hpoised'
    | mseek =>
      cases hperform
      exact hpoised.mseek
    | mseek_pos pos => exact hsequential.elim

theorem poised_along_run {alloc : Alloc} {size : Nat} (hsize : 1 ≤ size) {af fe : Bool} {h h' : MFile}
    (hopen : mopen alloc size af fe = .ok (some h)) {calls : List Call} {replies : List Reply}
    (hsequential : ∀ call ∈ calls, call.Sequential) (hcovered : ∀ call ∈ calls, call.Covered)
    (hnonempty : ∀ call ∈ calls, call.Nonempty) (hrun : run (perform alloc) h calls = .ok (h', replies)) :
    Poised h' := by
  have hholds := holds_of_open hsize hopen
  have hstart : Poised h := by
    refine ⟨hholds.layout.sound, hholds.layout.solid, ?_, ?_⟩
    · rw [eq_new_handle_of_mopen hopen]
      exact fun _ => ⟨rfl, nofun⟩
    · rw [eq_new_handle_of_mopen hopen]
      exact nofun
  have hkeeps := run_keeps_of_mem (C := fun call => call.Sequential ∧ call.Covered ∧ call.Nonempty)
    (fun h => Poised h ∧ h.DATA_BLOCK_SIZE = size) ?_ ⟨hstart, hholds.block_size⟩
    (fun call hcall => ⟨hsequential call hcall, hcovered call hcall, hnonempty call hcall⟩) hrun
  · exact hkeeps.1
  rintro h call h' reply ⟨hpoised, hblock⟩ ⟨hseq, hcover, hpos⟩ hperform
  obtain ⟨_, hblock'⟩ := perform_sound hpoised.sound (by omega) hcover hperform
  exact ⟨hpoised.perform (by omega) hseq hcover hpos hperform, hblock'.trans hblock⟩

/-- In every state that writes, nonempty head writes, reads and rewinds lead to,
    `mread` of one byte succeeds, and `mgetc` does the same: it takes the same byte,
    or nothing, and leaves the same handle. -/
theorem mgetc_is_mread_one {alloc : Alloc} {size : Nat} {af fe : Bool} {h h' : MFile}
    (hopen : mopen alloc size af fe = .ok (some h)) {calls : List Call} {replies : List Reply}
    (hsequential : ∀ call ∈ calls, call.Sequential) (hcovered : ∀ call ∈ calls, call.Covered)
    (hnonempty : ∀ call ∈ calls, call.Nonempty) (hrun : run (perform alloc) h calls = .ok (h', replies))
    (beyond : UInt8) :
    (∃ h'' rc bytes, mread h' 1 = .ok (h'', rc, bytes)) ∧
      (∀ h'' b, mread h' 1 = .ok (h'', 1, [b]) ↔
        mgetc h' beyond = .ok (h'', b) ∧ bytes_read h'' = bytes_read h' + 1) ∧
      ∀ h'' rc bytes, mread h' 1 = .ok (h'', rc, bytes) → rc ≤ 0 →
        mgetc h' beyond = .ok (h'', 0) ∧ h''.head = h'.head := by
  obtain ⟨_, hsize, hopen⟩ := open_sized hopen
  rcases (poised_along_run hsize hopen hsequential hcovered hnonempty hrun).readers beyond with
    ⟨h₁, c, hread, hget, hcount, _⟩ | ⟨h₁, rc₁, hrc₁, hread, hget, hhead, _⟩
  · refine ⟨⟨h₁, 1, [c], hread⟩, fun h'' b => ?_, fun h'' rc bytes hother hrc => ?_⟩
    · rw [hread, hget]
      constructor
      · intro heq
        cases heq
        exact ⟨rfl, hcount⟩
      · rintro ⟨heq, _⟩
        cases heq
        rfl
    · rw [hread] at hother
      cases hother
      omega
  · refine ⟨⟨h₁, rc₁, [], hread⟩, fun h'' b => ?_, fun h'' rc bytes hother hrc => ?_⟩
    · rw [hread, hget]
      constructor
      · intro heq
        cases heq
      · rintro ⟨heq, hcount⟩
        cases heq
        unfold bytes_read at hcount
        rw [hhead] at hcount
        omega
    · rw [hread] at hother
      cases hother
      exact ⟨hget, hhead⟩

/-- A byte was added to the block that the reader had read to its end, and a block
    was put before all others. -/
theorem mgetc_is_mread_one_exhausted :
    ∃ h' replies h'', run (perform fun _ => some fun _ => 0) (new_handle 2 true)
        [.op (.mwrite [1, 2, 3] 3), .op (.mread 3), .op (.mwrite [4] 1), .op (.mwrite_head [9] 1)] =
          .ok (h', replies) ∧
      mread h' 1 = .ok (h'', 0, []) ∧ mgetc h' 7 = .ok (h'', 0) ∧ h''.head = h'.head := by
  have hopen : mopen (fun _ => some fun _ => 0) 2 true true = .ok (some (new_handle 2 true)) := rfl
  obtain ⟨h', replies, hrun, hview⟩ := run_of_view (fun h : MFile => (mread h 1).toOption.map Prod.snd)
    (by decide +kernel : (run (perform fun _ => some fun _ => 0) (new_handle 2 true)
      [.op (.mwrite [1, 2, 3] 3), .op (.mread 3), .op (.mwrite [4] 1), .op (.mwrite_head [9] 1)]).toOption.map
        (fun r => (mread r.1 1).toOption.map Prod.snd) = some (some (0, [])))
  obtain ⟨⟨h'', rc, bytes⟩, hread, heq⟩ := eq_ok_of_view Prod.snd hview
  obtain ⟨rfl, rfl⟩ := Prod.mk.inj heq
  obtain ⟨_, _, hnothing⟩ := mgetc_is_mread_one hopen (by decide : ∀ call ∈ _, Call.Sequential call)
    (by decide : ∀ call ∈ _, Call.Covered call) (by decide : ∀ call ∈ _, Call.Nonempty call) hrun 7
  obtain ⟨hget, hhead⟩ := hnothing h'' 0 [] hread (by decide)
  exact ⟨h', replies, h'', hrun, hread, hget, hhead⟩

end code_tools.mfile
