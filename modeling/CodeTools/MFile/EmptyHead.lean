import CodeTools.MFile.Content
import CodeTools.MFile.Fronts
import CodeTools.MFile.Seeking

/-!
# Head writes of no bytes

A head write of no bytes puts a block before all others, and a reader that
comes to it takes it for the end of the data.
-/

namespace code_tools.mfile

open cmem machine

/-! ## Later calls -/

/-- The calls that may be made after a head write. -/
inductive LaterCall where
  | mread (len : Int)
  | mgetc (beyond : UInt8)
  | mread_line (buf : List UInt8) (n : Int) (beyond : Nat → UInt8)
  | mseek
  | mwrite (data : List UInt8) (len : Int)
  | msize

inductive Answer where
  | read (rc : Int) (bytes : List UInt8)
  | got (c : UInt8)
  | line (r : Nat) (buf : List UInt8)
  | sought
  | wrote (rc : Int)
  | size (size : Int)
deriving DecidableEq, Repr

def answer (alloc : Alloc) (h : MFile) : LaterCall → Except Fault (MFile × Answer)
  | .mread len => do
    let (h, rc, bytes) ← mread h len
    .ok (h, .read rc bytes)
  | .mgetc beyond => do
    let (h, c) ← mgetc h beyond
    .ok (h, .got c)
  | .mread_line buf n beyond => do
    let (h, buf, r) ← mread_line h buf n beyond
    .ok (h, .line r buf)
  | .mseek => .ok (mseek h, .sought)
  | .mwrite data len => do
    let (h, rc) ← mwrite alloc h data len
    .ok (h, .wrote rc)
  | .msize => .ok (h, .size (msize h))

/-- What a sequence of later calls returns. -/
def answers (alloc : Alloc) (h : MFile) (later : List LaterCall) : Except Fault (List Answer) :=
  (run (answer alloc) h later).map Prod.snd

theorem Unnoticed.answer {data : List UInt8} {h k : MFile} (hunnoticed : Unnoticed data h k) (alloc : Alloc)
    (call : LaterCall) : Lockstep (Unnoticed data) (mfile.answer alloc h call) (mfile.answer alloc k call) := by
  have hsteady := Unnoticed.steady data
  cases call with
  | mread len => exact (hsteady.toSteady.mread hunnoticed len).bind fun _ _ _ hnext => .ok _ hnext
  | mgetc beyond => exact (hsteady.toSteady.mgetc hunnoticed beyond).bind fun _ _ _ hnext => .ok _ hnext
  | mread_line buf n beyond => exact (hsteady.mread_line hunnoticed buf n beyond).bind fun _ _ _ hnext => .ok _ hnext
  | mseek => exact .ok _ hunnoticed.mseek
  | mwrite bytes len => exact (hunnoticed.mwrite alloc bytes len).bind fun _ _ _ hnext => .ok _ hnext
  | msize =>
    unfold mfile.answer msize
    rw [hunnoticed.total_size]
    exact .ok _ hunnoticed

theorem Unnoticed.answers {data : List UInt8} {h k : MFile} (hunnoticed : Unnoticed data h k) (alloc : Alloc)
    (later : List LaterCall) : mfile.answers alloc h later = mfile.answers alloc k later :=
  (Lockstep.run (fun call _ _ _ hnext => hnext.answer alloc call) hunnoticed).outputs

/-! ## Every reachable state -/

/-- What a reader finds before its first read. -/
def Unstarted (h : MFile) : Prop :=
  h.current_read_p = none → h.is_empty = false ∧ ∀ x ∈ h.head, x.2.current_read_count = 0

theorem unstarted_steady : LineSteady fun h k => h = k ∧ Unstarted h := by
  refine .of_keeps (steady_of_keeps (fun _ _ _ _ => nofun) (fun _ _ _ _ => nofun) ?_) fun _ _ hunstarted => hunstarted
  intro h block count _ hread hnone
  obtain ⟨a, ha, _⟩ := Tailq.read_mem hread
  have hnone : h.current_read_p = none := hnone
  rw [ha] at hnone
  cases hnone

/-- What runs keep: the queue is sound, reads start at the first byte, and the
    writer's block holds something. -/
structure Settled (h : MFile) : Prop where
  sound : Sound h
  size : 0 < h.DATA_BLOCK_SIZE
  unstarted : Unstarted h
  busy : ∀ x ∈ h.head, h.current_write_p = some x.1 → 0 < x.2.current_write_count

namespace Settled

variable {h h' : MFile}

theorem of_same (hsettled : Settled h) (hsame : SameStore h h') (hsound : Sound h') (hunstarted : Unstarted h') :
    Settled h' := by
  refine ⟨hsound, hsame.size ▸ hsettled.size, hunstarted, ?_⟩
  intro x hx hwriter
  obtain ⟨y, hy, haddress, _, _, hcount⟩ := hsame.block hx
  rw [← hcount]
  exact hsettled.busy y hy (hsame.current_write_p.symm.trans (hwriter.trans (congrArg some haddress.symm)))

/-- The handle that has only the writer's block writes like the whole handle. -/
theorem writer_alone (hsettled : Settled h) :
    ∃ k front, Layout k ∧ k.DATA_BLOCK_SIZE = h.DATA_BLOCK_SIZE ∧ Alike [] front k.reader h.reader k h := by
  have hsound := hsettled.sound
  obtain ⟨front, q, hhead, hlast⟩ : ∃ front q, h.head = front ++ q ∧
      (q = [] ∧ h.current_write_p = none ∨ ∃ a block, q = [(a, block)] ∧ h.current_write_p = some a) := by
    cases hp : h.current_write_p with
    | none => exact ⟨h.head, [], (List.append_nil _).symm, Or.inl ⟨rfl, rfl⟩⟩
    | some a =>
      obtain ⟨block, hlast, _⟩ := hsound.writer a hp
      obtain ⟨front, hhead⟩ := List.getLast?_eq_some_iff.mp hlast
      exact ⟨front, [(a, block)], hhead, Or.inr ⟨a, block, rfl, rfl⟩⟩
  have hnodup := hsound.nodup
  rw [hhead, Tailq.addresses_append, List.nodup_append] at hnodup
  have hmem : ∀ x ∈ q, x ∈ h.head := by
    intro x hx
    rw [hhead]
    exact List.mem_append_right _ hx
  have hsolid : Solid q := by
    intro x hx
    rcases hlast with ⟨rfl, _⟩ | ⟨a, block, rfl, hp⟩
    · cases hx
    · obtain rfl := List.mem_singleton.mp hx
      exact hsettled.busy _ (hmem _ hx) hp
  refine ⟨{ h with head := q, block_num := q.length, current_read_p := none }, front,
    layout_iff.mpr ⟨?_, hsolid⟩, rfl, ?_⟩
  · refine ⟨hnodup.2.1, ?_, rfl, fun x hx => hsound.sized x (hmem x hx), hsound.unwritten, ?_, nofun⟩
    · intro a ha
      obtain ⟨x, hx, rfl⟩ := List.mem_map.mp ha
      exact hsound.fresh x.1 (List.mem_map_of_mem (hmem x hx))
    · intro a ha
      obtain ⟨block, hblock, hfull⟩ := hsound.writer a ha
      refine ⟨block, ?_, hfull⟩
      rcases hlast with ⟨rfl, hp⟩ | ⟨b, block', rfl, hp⟩
      · rw [show h.current_write_p = some a from ha] at hp
        cases hp
      · rwa [hhead, List.getLast?_concat] at hblock
  · refine ⟨⟨q, rfl, hhead, fun a ha hfront => hnodup.2.2 a hfront a ha rfl⟩, rfl, rfl, rfl, rfl, rfl, rfl, rfl,
      ?_, ?_,
      List.nil_subset _, hnodup.1⟩
    · intro a ha hfront
      rcases hlast with ⟨_, hp⟩ | ⟨b, block, rfl, hp⟩
      · rw [show h.current_write_p = some a from ha] at hp
        cases hp
      · obtain rfl : a = b := Option.some.inj (Eq.trans (Eq.symm ha) hp)
        exact hnodup.2.2 a hfront a (by simp [Tailq.addresses]) rfl
    · intro a ha
      refine hsound.fresh a ?_
      rw [hhead, Tailq.addresses_append]
      exact List.mem_append_left _ ha

theorem mwrite (hsettled : Settled h) {alloc : Alloc} {data : List UInt8} {len rc : Int} (hdata : len ≤ data.length)
    (hwrite : mfile.mwrite alloc h data len = .ok (h', rc)) : Settled h' := by
  obtain ⟨h₁, rc₁, count, hwrite₁, hwrote, hchunks⟩ := mwrite_wrote alloc hsettled.sound hsettled.size hdata
  obtain ⟨rfl, rfl⟩ := ok_inj hwrite₁ hwrite
  refine ⟨hwrote.sound, hwrote.untouched.size ▸ hsettled.size, ?_, ?_⟩
  · intro hnone
    obtain ⟨hempty, hunread⟩ := hsettled.unstarted (hwrote.untouched.current_read_p.symm.trans hnone)
    exact ⟨hwrote.untouched.is_empty.trans hempty, hchunks.unread hunread⟩
  · obtain ⟨k, front, hlayout, hsize, halike⟩ := hsettled.writer_alone
    obtain ⟨k', rc', count', hwrite', hwrote', _⟩ :=
      mwrite_wrote alloc hlayout.sound (hsize ▸ hsettled.size : 0 < k.DATA_BLOCK_SIZE) hdata
    obtain ⟨h₂, hwrite₂, halike'⟩ := (halike.mwrite alloc data len).of_ok hwrite'
    obtain ⟨rfl, _⟩ := ok_inj hwrite₂ hwrite
    obtain ⟨q, hhead, hhead', _⟩ := halike'.heads
    intro x hx hwriter
    rw [hhead'] at hx
    rcases List.mem_append.mp hx with hfront | hq
    · exact absurd (List.mem_map_of_mem hfront) (halike'.writer x.1 (halike'.current_write_p.symm.trans hwriter))
    · refine hwrote'.solid hlayout.solid x ?_
      rw [hhead]
      exact hq

theorem mwrite_head (hsettled : Settled h) {alloc : Alloc} {data : List UInt8} {len rc : Int} (hsound : Sound h')
    (hsize : h'.DATA_BLOCK_SIZE = h.DATA_BLOCK_SIZE) (hwrite : mfile.mwrite_head alloc h data len = .ok (h', rc)) :
    Settled h' := by
  obtain ⟨⟨hpointer, hflag, _, hwriter⟩, _⟩ := mwrite_head_cases hwrite
  obtain ⟨before, hhead, hbefore⟩ := mwrite_head_front hwrite
  refine ⟨hsound, hsize ▸ hsettled.size, ?_, ?_⟩
  · intro hnone
    obtain ⟨hempty, hunread⟩ := hsettled.unstarted (hpointer.symm.trans hnone)
    refine ⟨hflag.trans hempty, fun x hx => ?_⟩
    rw [hhead] at hx
    rcases List.mem_append.mp hx with hnew | hold
    · exact (hbefore x hnew).2.2
    · exact hunread x hold
  · intro x hx hp
    have hp : h.current_write_p = some x.1 := hwriter.symm.trans hp
    rw [hhead] at hx
    rcases List.mem_append.mp hx with hnew | hold
    · -- the writer is at a block that was there before
      obtain ⟨block, hlast, _⟩ := hsettled.sound.writer x.1 hp
      have hless := hsettled.sound.fresh x.1 (List.mem_map.mpr ⟨(x.1, block), List.mem_of_getLast? hlast, rfl⟩)
      have heq := (hbefore x hnew).1
      omega
    · exact hsettled.busy x hold hp

theorem perform (hsettled : Settled h) {alloc : Alloc} {call : Call} (hcovered : call.Covered) {reply : Reply}
    (hperform : mfile.perform alloc h call = .ok (h', reply)) : Settled h' := by
  obtain ⟨hsound', hsize'⟩ := perform_sound hsettled.sound hsettled.size hcovered hperform
  cases call with
  | mread_line buf n beyond =>
    obtain ⟨⟨h₁, buf₁, r⟩, hline, hdone⟩ := bind_eq_ok_iff.mp hperform
    cases hdone
    exact hsettled.of_same (mread_line_same hsettled.sound hline).1 hsound'
      (unstarted_steady.keeps_mread_line hsettled.unstarted hline)
  | op op =>
    obtain ⟨⟨h₁, outcome⟩, hexec, hdone⟩ := bind_eq_ok_iff.mp hperform
    cases hdone
    cases op with
    | mwrite data len =>
      obtain ⟨⟨h₂, rc⟩, hwrite, hreturn⟩ := bind_eq_ok_iff.mp hexec
      cases hreturn
      exact hsettled.mwrite hcovered hwrite
    | mwrite_head data len =>
      obtain ⟨⟨h₂, rc⟩, hwrite, hreturn⟩ := bind_eq_ok_iff.mp hexec
      cases hreturn
      exact hsettled.mwrite_head hsound' hsize' hwrite
    | mread len =>
      obtain ⟨⟨h₂, rc, bytes⟩, hread, hreturn⟩ := bind_eq_ok_iff.mp hexec
      cases hreturn
      obtain ⟨h₃, rc₃, bytes₃, hread₃, hsame, _⟩ := mread_same hsettled.sound len
      obtain ⟨rfl, _⟩ := ok_inj hread₃ hread
      exact hsettled.of_same hsame hsound' (unstarted_steady.keeps_mread hsettled.unstarted hread)
    | mgetc beyond =>
      obtain ⟨⟨h₂, c⟩, hget, hreturn⟩ := bind_eq_ok_iff.mp hexec
      cases hreturn
      obtain ⟨h₃, c₃, hget₃, hsame, _⟩ := mgetc_same hsettled.sound beyond
      obtain ⟨rfl, _⟩ := ok_inj hget₃ hget
      exact hsettled.of_same hsame hsound' (unstarted_steady.keeps_mgetc hsettled.unstarted hget)
    | mseek =>
      cases hexec
      exact hsettled.of_same (mseek_store h) hsound' fun _ => ⟨rfl, fun _ hx => (mem_shelf hx).1⟩
    | mseek_pos pos =>
      cases hexec
      refine hsettled.of_same (mseek_pos_same hsettled.sound pos).1 hsound' fun hnone => ?_
      rw [mseek_pos_toNat] at hnone ⊢
      rcases mseek_pos_cases hsettled.sound pos.toNat with ⟨_, a, _, _, _, _, _, _, _, hplace, _⟩ | ⟨heq, _, _⟩
      · rw [hplace.pointer] at hnone
        cases hnone
      · rw [heq]
        exact ⟨rfl, fun _ hx => (mem_shelf hx).1⟩

end Settled

theorem settled_of_open {alloc : Alloc} {size : Nat} {af fe : Bool} {h : MFile}
    (hopen : mopen alloc size af fe = .ok (some h)) : Settled h := by
  rw [eq_new_handle_of_mopen hopen]
  refine ⟨⟨List.nodup_nil, nofun, rfl, nofun, fun _ => rfl, nofun, nofun⟩, ?_, fun _ => ⟨rfl, nofun⟩, nofun⟩
  unfold new_handle DEFAULT_DATA_BLOCK_SIZE
  dsimp only
  split
  · decide
  · omega

theorem settled_along_run {alloc : Alloc} {size : Nat} {af fe : Bool} {h₀ h : MFile}
    (hopen : mopen alloc size af fe = .ok (some h₀)) {calls : List Call} {replies : List Reply}
    (hcovered : ∀ call ∈ calls, call.Covered) (hrun : run (perform alloc) h₀ calls = .ok (h, replies)) :
    Settled h := by
  refine run_keeps_of_mem Settled ?_ (settled_of_open hopen) hcovered hrun
  intro h call h' reply hsettled hcall hperform
  exact hsettled.perform hcall hperform

/-! ## The head write of no bytes -/

/-- The block that is put before the others if the allocator grants it. -/
theorem mwrite_head_empty (alloc : Alloc) (h : MFile) (data : List UInt8) :
    (¬Granted alloc h.allocs ∧ ∃ freed, mwrite_head alloc h data 0 =
        .ok ({ h with allocs := after_refusal alloc h.allocs, freed := freed }, -1)) ∨
      ∃ junk, Granted alloc h.allocs ∧ alloc (h.allocs + 1) = some junk ∧ mwrite_head alloc h data 0 =
        .ok ({ h with
          allocs := h.allocs + 2, block_num := h.block_num + 1, new_header_size := h.new_header_size % 2 ^ 32
          head := (h.allocs, ⟨0, (List.range h.DATA_BLOCK_SIZE).map junk, h.allocs + 1, 0, 0⟩) :: h.head }, 1) := by
  have htotal : { h with total_size := h.total_size + 0 } = h := by rw [Int.add_zero]
  unfold mwrite_head
  rw [if_neg (by omega), htotal]
  by_cases hgranted : Granted alloc h.allocs
  · right
    obtain ⟨hfirst, hsecond⟩ := hgranted
    obtain ⟨junk₀, hjunk₀⟩ := Option.isSome_iff_exists.mp hfirst
    obtain ⟨junk, hjunk⟩ := Option.isSome_iff_exists.mp hsecond
    refine ⟨junk, ⟨hfirst, hsecond⟩, hjunk, ?_⟩
    unfold new_block
    rw [hjunk₀]
    dsimp only
    rw [hjunk]
    dsimp only
    rw [if_neg (by decide), slice_eq (Nat.zero_le _), ok_bind,
      blit_eq_ok_iff.mpr ⟨Nat.zero_le _, rfl⟩, ok_bind]
    simp
  · left
    obtain ⟨freed, hnew⟩ := new_block_refused hgranted
    rw [hnew]
    exact ⟨hgranted, freed, rfl⟩

/-- The allocator refuses the block, or the first block holds nothing already and
    its buffer is like the memory that the new block would get. -/
def Unseen (alloc : Alloc) (h : MFile) : Prop :=
  Granted alloc h.allocs → ∃ x ∈ h.head.head?, x.2.current_write_count = 0 ∧
    some x.2.data = (alloc (h.allocs + 1)).map fun junk => (List.range h.DATA_BLOCK_SIZE).map junk

instance (alloc : Alloc) (h : MFile) : Decidable (Unseen alloc h) :=
  inferInstanceAs (Decidable (_ → ∃ x ∈ h.head.head?, _))

/-- A block is put before a first block that holds nothing. -/
theorem Settled.alike {h : MFile} (hsettled : Settled h) {e : Nat} {old : DataBlock} {q : Tailq DataBlock}
    (hhead : h.head = (e, old) :: q) (hcount : old.current_write_count = 0) (new : DataBlock)
    (block_num new_header_size : Nat) :
    Alike [(e, old)] ([(h.allocs, new)] ++ [(e, old)]) h.reader h.reader { h with allocs := h.allocs + 2 }
      { h with
        allocs := h.allocs + 2, block_num := block_num, new_header_size := new_header_size
        head := (h.allocs, new) :: h.head } := by
  have hsound := hsettled.sound
  have hnodup := hsound.nodup
  have hfresh := hsound.fresh
  rw [hhead] at hnodup hfresh
  have hmem : ∀ a ∈ Tailq.addresses ([(h.allocs, new)] ++ [(e, old)]), a = h.allocs ∨ a = e := by
    intro a ha
    simpa [Tailq.addresses] using ha
  have hbelow : ∀ a, h.current_write_p = some a → a < h.allocs := by
    intro a ha
    obtain ⟨block, hlast, _⟩ := hsound.writer a ha
    exact hsound.fresh a (List.mem_map.mpr ⟨_, List.mem_of_getLast? hlast, rfl⟩)
  have he := hfresh e List.mem_cons_self
  refine ⟨⟨q, hhead, ?_, ?_⟩, rfl, rfl, rfl, rfl, rfl, rfl, rfl, ?_, ?_, ?_, ?_⟩
  · rw [hhead]
    rfl
  · intro a ha hfront
    have hless := hfresh a (List.mem_cons_of_mem e ha)
    rcases hmem a hfront with hnew | hold
    · omega
    · exact (List.nodup_cons.mp hnodup).1 (hold ▸ ha)
  · intro a ha hfront
    have hless := hbelow a ha
    rcases hmem a hfront with hnew | rfl
    · omega
    · have hpos := hsettled.busy (a, old) (by simp [hhead]) ha
      dsimp only at hpos
      omega
  · intro a ha
    show a < h.allocs + 2
    rcases hmem a ha with hnew | hold
    · omega
    · omega
  · exact List.subset_cons_self _ _
  · refine List.nodup_cons.mpr ⟨fun hfront => ?_, List.nodup_singleton e⟩
    have heq := List.mem_singleton.mp hfront
    dsimp only at heq
    omega

/-- The two handles after the head write and without it, which asks the allocator
    from the same number on. -/
theorem unnoticed_of_unseen {alloc : Alloc} {h h' : MFile} (hsettled : Settled h) (hunseen : Unseen alloc h)
    {data : List UInt8} {rc : Int} (hwrite : mwrite_head alloc h data 0 = .ok (h', rc)) :
    ∃ blank, Unnoticed blank { h with allocs := h'.allocs } h' := by
  rcases mwrite_head_empty alloc h data with ⟨_, freed, hempty⟩ | ⟨junk, hgranted, hjunk, hempty⟩
  · obtain ⟨rfl, _⟩ := ok_inj hempty hwrite
    have halike : Alike [] ([] ++ []) h.reader h.reader { h with allocs := after_refusal alloc h.allocs }
        { h with allocs := after_refusal alloc h.allocs, freed := freed } :=
      ⟨⟨h.head, rfl, rfl, fun _ _ => List.not_mem_nil⟩, rfl, rfl, rfl, rfl, rfl, rfl, rfl,
        fun _ _ => List.not_mem_nil, nofun, List.nil_subset _, List.nodup_nil⟩
    exact ⟨[], .behind halike (fun _ _ => List.not_mem_nil) (Or.inl ⟨rfl, rfl⟩)⟩
  · obtain ⟨⟨e, old⟩, hfirst, hcount, hdata⟩ := hunseen hgranted
    obtain ⟨q, hhead⟩ := List.head?_eq_some_iff.mp hfirst
    obtain ⟨rfl, _⟩ := ok_inj hempty hwrite
    rw [hjunk] at hdata
    have hold : old.Blank ((List.range h.DATA_BLOCK_SIZE).map junk) := ⟨hcount, Option.some.inj hdata⟩
    obtain ⟨new, hnew⟩ : ∃ new : DataBlock, new = ⟨0, (List.range h.DATA_BLOCK_SIZE).map junk, h.allocs + 1, 0, 0⟩ :=
      ⟨_, rfl⟩
    have hblank : new.Blank ((List.range h.DATA_BLOCK_SIZE).map junk) := by
      rw [hnew]
      exact ⟨rfl, rfl⟩
    have hunread : new.current_read_count = 0 := by rw [hnew]
    have halike := hsettled.alike hhead hcount new (h.block_num + 1) (h.new_header_size % 2 ^ 32)
    rw [← hnew]
    refine ⟨(List.range h.DATA_BLOCK_SIZE).map junk, ?_⟩
    rcases Option.eq_none_or_eq_some h.current_read_p with hp | ⟨a, hp⟩
    · obtain ⟨hflag, hnever⟩ := hsettled.unstarted hp
      have hzero : old.current_read_count = 0 := hnever (e, old) (by simp [hhead])
      have halike : Alike [(e, old)] [(h.allocs, new), (e, old)] h.reader h.reader _ _ := halike
      exact .before halike hold hblank (hunread.trans hzero.symm) ⟨hflag, hflag⟩ rfl (Or.inr ⟨hp, hp, hzero⟩)
    · have hstarted : h.reader.current_read_p ≠ none := by
        rw [show h.reader.current_read_p = some a from hp]
        exact nofun
      refine .behind halike ?_ (Or.inr ⟨hstarted, h.allocs, new, e, old, rfl, rfl, hblank, hold⟩)
      intro b hb hmem
      obtain rfl := List.mem_singleton.mp hmem
      exact Nat.lt_irrefl _ (hsettled.sound.fresh _ (hsettled.sound.reader _ hb))

/-! ## What shows the block -/

theorem answers_cons {alloc : Alloc} {h h' : MFile} {call : LaterCall} {a : Answer}
    (hanswer : answer alloc h call = .ok (h', a)) (later : List LaterCall) :
    answers alloc h (call :: later) = (answers alloc h' later).map (List.cons a) := by
  unfold answers
  rw [run, hanswer]
  dsimp only
  cases run (answer alloc) h' later with
  | error e => rfl
  | ok r => rfl

/-- The first read after a rewind. -/
theorem answers_mread {alloc : Alloc} {h : MFile} (hsound : Sound h) : answers alloc h [.mseek, .mread 1] =
    .ok [.sought, .read (if h.head = [] then -1 else ((ahead (shelf h.head)).take 1).length)
      ((ahead (shelf h.head)).take 1)] := by
  obtain ⟨h', hread, _⟩ := mread_faces (mseek_faces hsound) 1
  have hblocks : (mseek h).head = [] ↔ h.head = [] := List.map_eq_nil_iff
  simp only [hblocks] at hread
  have hone : (1 : Int).toNat = 1 := rfl
  rw [hone] at hread
  rw [answers_cons (rfl : answer alloc h .mseek = .ok (mseek h, .sought))]
  simp only [answers, run, answer, hread, ok_bind]
  rfl

/-- Bytes taken from a first block that holds nothing are those of its buffer. -/
theorem answers_mgetc (alloc : Alloc) {h : MFile} {a : Nat} {block : DataBlock} {q : Tailq DataBlock}
    (hhead : h.head = (a, block) :: q) (hcount : block.current_write_count = 0) (hflag : h.is_empty = false)
    (hpointer : h.current_read_p = none ∨ h.current_read_p = some a) (m : Nat) :
    answers alloc h (List.replicate m (.mgetc 0)) =
      .ok ((List.range m).map fun i => .got (block.data.getD (block.current_read_count + i) 0)) := by
  induction m generalizing h block q with
  | zero => rfl
  | succ m ih =>
    have hstart : read_start h = some a := by
      rcases hpointer with hnone | hsome
      · simp [read_start, hnone, hhead, Tailq.first]
      · simp [read_start, hsome]
    obtain ⟨h₀, hh₀⟩ : ∃ h₀, h₀ = { h with current_read_p := some a } := ⟨_, rfl⟩
    have hp₀ : h₀.current_read_p = some a := by rw [hh₀]
    have hread : h₀.head.read h₀.current_read_p = .ok block := by simp [hh₀, hhead, Tailq.read]
    have hadvance : read_advance h₀ = .ok (some h₀) := by
      unfold read_advance
      rw [if_neg (by simp [hh₀, hflag])]
    obtain ⟨q', hhead'⟩ : ∃ q', (consume h₀ block 1).head =
        (a, { block with current_read_count := block.current_read_count + 1 }) :: q' := by
      rw [consume_head hp₀, show h₀.head = (a, block) :: q by rw [hh₀]; exact hhead, Tailq.modify, List.map_cons,
        if_pos rfl]
      exact ⟨_, rfl⟩
    have hget : mgetc h 0 = .ok (consume h₀ block 1, block.data.getD block.current_read_count 0) := by
      unfold mgetc
      rw [hstart]
      dsimp only
      rw [← hh₀, hadvance, ok_bind]
      dsimp only
      rw [hread, ok_bind]
    have hflag' : (consume h₀ block 1).is_empty = false := decide_eq_false (by rw [hcount]; omega)
    have hanswer : answer alloc h (.mgetc 0) =
        .ok (consume h₀ block 1, .got (block.data.getD block.current_read_count 0)) := by
      simp only [answer, hget, ok_bind]
    rw [List.replicate_succ, answers_cons hanswer, ih hhead' hcount hflag' (Or.inr hp₀), List.range_succ_eq_map,
      List.map_cons, List.map_map]
    simp only [Except.map, Nat.add_zero, Function.comp_def, Nat.succ_eq_add_one, Nat.add_assoc, Nat.add_comm 1]

/-- Blocks that are read alike after a rewind, byte for byte, have like buffers. -/
theorem data_eq_of_answers {alloc : Alloc} {h k : MFile} {a b : Nat} {block block' : DataBlock}
    {q q' : Tailq DataBlock}
    (hhead : h.head = (a, block) :: q) (hhead' : k.head = (b, block') :: q') (hcount : block.current_write_count = 0)
    (hcount' : block'.current_write_count = 0) (hlength : block'.data.length = block.data.length)
    (hsame : ∀ later, answers alloc h later = answers alloc k later) : block'.data = block.data := by
  have htaken := hsame (.mseek :: List.replicate block.data.length (.mgetc 0))
  have hrewound : (mseek h).head = (a, { block with current_read_count := 0 }) :: shelf q := congrArg shelf hhead
  have hrewound' : (mseek k).head = (b, { block' with current_read_count := 0 }) :: shelf q' := congrArg shelf hhead'
  rw [answers_cons (rfl : answer alloc h .mseek = .ok (mseek h, .sought)),
    answers_cons (rfl : answer alloc k .mseek = .ok (mseek k, .sought)),
    answers_mgetc alloc hrewound hcount rfl (Or.inl rfl),
    answers_mgetc alloc hrewound' hcount' rfl (Or.inl rfl)] at htaken
  have hbytes := List.map_inj_left.mp (List.cons.inj (Except.ok.inj htaken)).2
  apply List.ext_getElem hlength
  intro i hi hi'
  have hbyte := Answer.got.inj (hbytes i (List.mem_range.mpr hi'))
  simpa [List.getD_eq_getElem?_getD, hi, hi'] using hbyte.symm

/-- Whoever cannot see the head write has the block refused, or finds another
    empty block first. -/
theorem unseen_of_answers {alloc : Alloc} {h h' : MFile} (hsettled : Settled h) {data : List UInt8} {rc : Int}
    (hwrite : mwrite_head alloc h data 0 = .ok (h', rc))
    (hsame : ∀ later, answers alloc { h with allocs := h'.allocs } later = answers alloc h' later) :
    Unseen alloc h := by
  intro hgranted
  rcases mwrite_head_empty alloc h data with ⟨hrefused, _⟩ | ⟨junk, _, hjunk, hempty⟩
  · exact absurd hgranted hrefused
  have hsound := hsettled.sound
  have hcovered : (Call.op (.mwrite_head data 0)).Covered := Int.natCast_nonneg data.length
  have hperform : perform alloc h (.op (.mwrite_head data 0)) = .ok (h', .outcome (.wrote rc)) := by
    simp only [perform, exec, hwrite, ok_bind]
  have hsound' := (perform_sound hsound hsettled.size hcovered hperform).1
  obtain ⟨hh, _⟩ := ok_inj hempty hwrite
  obtain ⟨new, hnew⟩ : ∃ new : DataBlock, new = ⟨0, (List.range h.DATA_BLOCK_SIZE).map junk, h.allocs + 1, 0, 0⟩ :=
    ⟨_, rfl⟩
  have hallocs : h'.allocs = h.allocs + 2 := by rw [← hh]
  have hhead' : h'.head = (h.allocs, new) :: h.head := by rw [← hh, hnew]
  have hcount' : new.current_write_count = 0 := by rw [hnew]
  have hsound₁ : Sound { h with allocs := h'.allocs } := by
    refine ⟨hsound.nodup, fun a ha => ?_, hsound.block_num, hsound.sized, hsound.unwritten, hsound.writer,
      hsound.reader⟩
    have hless := hsound.fresh a ha
    dsimp only
    omega
  -- a byte is asked for
  have hread := hsame [.mseek, .mread 1]
  have hnothing : ahead (shelf ((h.allocs, new) :: h.head)) = [] := ahead_cons_neg (by dsimp only; omega)
  rw [answers_mread hsound₁, answers_mread hsound', hhead', hnothing, if_neg (List.cons_ne_nil _ _)] at hread
  obtain ⟨hrc, hbytes⟩ := Answer.read.inj (List.cons.inj (List.cons.inj (Except.ok.inj hread)).2).1
  have hblocks : h.head ≠ [] := by
    intro hnil
    rw [if_pos hnil] at hrc
    cases hrc
  obtain ⟨⟨e, old⟩, q, hhead⟩ := List.exists_cons_of_ne_nil hblocks
  have hsized := hsound.sized (e, old) (by simp [hhead])
  have hcount : old.current_write_count = 0 := by
    by_contra hne
    have hahead : ahead (shelf h.head) = old.written ++ ahead (shelf q) := by
      rw [hhead]
      exact ahead_cons_pos (by dsimp only; omega)
    have hnone := (List.take_eq_nil_iff.mp hbytes).resolve_left Nat.one_ne_zero
    rw [hahead] at hnone
    have hlength := congrArg List.length (List.append_eq_nil_iff.mp hnone).1
    rw [hsized.length_written] at hlength
    exact hne hlength
  -- and then all bytes of the buffer
  have hlength : new.data.length = old.data.length := by
    rw [hnew, hsized.length]
    simp
  have hdata := data_eq_of_answers (show { h with allocs := h'.allocs }.head = _ from hhead) hhead' hcount hcount'
    hlength hsame
  refine ⟨(e, old), by simp [hhead], hcount, ?_⟩
  rw [← hdata, hjunk, hnew]
  rfl

/-- Whatever the blocks' size, the allocator and the calls before, a head write of
    no bytes changes what some later calls return, unless the allocator refuses its
    block or the first block already is such a block. For the later calls the
    allocator counts from the same number on, with the head write and without. -/
theorem empty_head_invisible_iff {alloc : Alloc} {size : Nat} {af fe : Bool} {h₀ h : MFile}
    (hopen : mopen alloc size af fe = .ok (some h₀)) {calls : List Call} {replies : List Reply}
    (hcovered : ∀ call ∈ calls, call.Covered) (hrun : run (perform alloc) h₀ calls = .ok (h, replies))
    (data : List UInt8) :
    ∃ h' rc, mwrite_head alloc h data 0 = .ok (h', rc) ∧
      ((∀ later : List LaterCall, answers alloc { h with allocs := h'.allocs } later = answers alloc h' later) ↔
        Unseen alloc h) := by
  have hsettled := settled_along_run hopen hcovered hrun
  obtain ⟨⟨h', rc⟩, hwrite⟩ : ∃ r, mwrite_head alloc h data 0 = .ok r := by
    rcases mwrite_head_empty alloc h data with ⟨_, freed, hempty⟩ | ⟨junk, _, _, hempty⟩
    · exact ⟨_, hempty⟩
    · exact ⟨_, hempty⟩
  refine ⟨h', rc, hwrite, unseen_of_answers hsettled hwrite, fun hunseen later => ?_⟩
  obtain ⟨blank, hunnoticed⟩ := unnoticed_of_unseen hsettled hunseen hwrite
  exact hunnoticed.answers alloc later

/-- A second head write of no bytes, with an allocator that clears memory. -/
theorem second_empty_head_unseen :
    ∃ h replies h' rc, run (perform fun _ => some fun _ => 0) (new_handle 2 true)
        [.op (.mwrite [7] 1), .op (.mwrite_head [] 0)] = .ok (h, replies) ∧
      mwrite_head (fun _ => some fun _ => 0) h [5] 0 = .ok (h', rc) ∧
      ∀ later : List LaterCall, answers (fun _ => some fun _ => 0) { h with allocs := h'.allocs } later =
        answers (fun _ => some fun _ => 0) h' later := by
  have hopen : mopen (fun _ => some fun _ => 0) 2 true true = .ok (some (new_handle 2 true)) := rfl
  obtain ⟨h, replies, hrun, hview⟩ := run_of_view (fun h => decide (Unseen (fun _ => some fun _ => 0) h))
    (by decide +kernel : (run (perform fun _ => some fun _ => 0) (new_handle 2 true)
      [.op (.mwrite [7] 1), .op (.mwrite_head [] 0)]).toOption.map
        (fun r => decide (Unseen (fun _ => some fun _ => 0) r.1)) = some true)
  obtain ⟨h', rc, hwrite, hiff⟩ :=
    empty_head_invisible_iff hopen (by decide : ∀ call ∈ _, Call.Covered call) hrun [5]
  exact ⟨h, replies, h', rc, hrun, hwrite, hiff.mpr (of_decide_eq_true hview)⟩

/-- The byte that was written is not read any more. -/
theorem empty_head_hides_byte :
    ∃ h replies h' rc, run (perform fun _ => some fun _ => 0) (new_handle 2 true) [.op (.mwrite [7] 1)] =
        .ok (h, replies) ∧
      mwrite_head (fun _ => some fun _ => 0) h [] 0 = .ok (h', rc) ∧
      answers (fun _ => some fun _ => 0) { h with allocs := h'.allocs } [.mread 1] = .ok [.read 1 [7]] ∧
      answers (fun _ => some fun _ => 0) h' [.mread 1] = .ok [.read 0 []] := by
  obtain ⟨h, replies, hrun, hview⟩ := run_of_view
    (fun h => (mwrite_head (fun _ => some fun _ => 0) h [] 0).toOption.map fun r =>
      ((answers (fun _ => some fun _ => 0) { h with allocs := r.1.allocs } [.mread 1]).toOption,
        (answers (fun _ => some fun _ => 0) r.1 [.mread 1]).toOption))
    (by decide +kernel : (run (perform fun _ => some fun _ => 0) (new_handle 2 true)
      [.op (.mwrite [7] 1)]).toOption.map
        (fun s => (mwrite_head (fun _ => some fun _ => 0) s.1 [] 0).toOption.map fun r =>
          ((answers (fun _ => some fun _ => 0) { s.1 with allocs := r.1.allocs } [.mread 1]).toOption,
            (answers (fun _ => some fun _ => 0) r.1 [.mread 1]).toOption)) =
      some (some (some [.read 1 [7]], some [.read 0 []])))
  obtain ⟨⟨h', rc⟩, hwrite, hanswers⟩ := eq_ok_of_view
    (fun r : MFile × Int => ((answers (fun _ => some fun _ => 0) { h with allocs := r.1.allocs } [.mread 1]).toOption,
      (answers (fun _ => some fun _ => 0) r.1 [.mread 1]).toOption)) hview
  obtain ⟨hwithout, hwith⟩ := Prod.mk.inj hanswers
  obtain ⟨_, hwithout, rfl⟩ := eq_ok_of_view id (congrArg (Option.map id) hwithout)
  obtain ⟨_, hwith, rfl⟩ := eq_ok_of_view id (congrArg (Option.map id) hwith)
  exact ⟨h, replies, h', rc, hrun, hwrite, hwithout, hwith⟩

end code_tools.mfile
