import CodeTools.Lib.Machine
import CodeTools.MFile.Content
import CodeTools.MFile.Unread

/-!
# Reading what is being written

The reader notes with `is_empty` that it drained its block and goes on to the
next one from there. A write that fills the rest of that block does not take
the note back.
-/

namespace code_tools.mfile

open cmem machine

/-! ## The position of the reader -/

/-- The reader stands in the block at `a` and has delivered exactly `done`. No
    later block was read. Unless the block counts as empty it has unread bytes. -/
def Cursor (q : Tailq DataBlock) (a : Nat) (done : List UInt8) (is_empty : Bool) : Prop :=
  ∃ pre block post, q = pre ++ (a, block) :: post ∧
    done = contents pre ++ block.written.take block.current_read_count ∧
    block.current_read_count ≤ block.written.length ∧
    (∀ x ∈ post, x.2.current_read_count = 0) ∧
    (is_empty = false → block.current_read_count < block.written.length)

theorem Cursor.prefix_contents {q : Tailq DataBlock} {a : Nat} {done : List UInt8} {is_empty : Bool}
    (h : Cursor q a done is_empty) : done <+: contents q := by
  obtain ⟨pre, block, post, rfl, rfl, _⟩ := h
  rw [contents_append, contents_cons]
  apply (List.prefix_append_right_inj _).mpr
  exact (List.take_prefix _ _).trans (List.prefix_append _ _)

/-- Writing moves no reader. -/
theorem Cursor.chunk {q q' : Tailq DataBlock} {a : Nat} {done bytes : List UInt8} {is_empty : Bool}
    (h : Cursor q a done is_empty) (hchunk : Chunk q q' bytes) : Cursor q' a done is_empty := by
  obtain ⟨pre, block, post, hq, rfl, hle, hlater, hmore⟩ := h
  obtain ⟨front, c, old, new, hold, rfl, hwritten, hread⟩ := hchunk
  rw [hq] at hold
  cases old with
  | none =>
    rw [Option.map_none, Option.toList_none, List.append_nil] at hold
    refine ⟨pre, block, post ++ [(c, new)], by rw [← hold]; simp, rfl, hle, ?_, hmore⟩
    intro x hx
    rcases List.mem_append.mp hx with hpost | hlast
    · exact hlater x hpost
    · obtain rfl : x = (c, new) := by simpa using hlast
      exact hread
  | some last =>
    rw [Option.map_some, Option.toList_some] at hold
    rw [Option.elim_some] at hwritten hread
    rcases List.eq_nil_or_concat post with rfl | ⟨post', x, rfl⟩
    · obtain ⟨rfl, hpair⟩ := List.append_inj' hold rfl
      obtain ⟨rfl, rfl⟩ : a = c ∧ block = last := by simpa using hpair
      have hlen : block.written.length ≤ new.written.length := by
        rw [hwritten, List.length_append]
        omega
      refine ⟨pre, new, [], rfl, ?_, by omega, by simp, fun hflag => ?_⟩
      · rw [hread, hwritten, List.take_append_of_le_length hle]
      · have hlt := hmore hflag
        omega
    · have hsplit : (pre ++ (a, block) :: post') ++ [x] = front ++ [(c, last)] := by
        rw [← hold]
        simp
      obtain ⟨rfl, hpair⟩ := List.append_inj' hsplit rfl
      obtain rfl : x = (c, last) := by simpa using hpair
      refine ⟨pre, block, post' ++ [(c, new)], by simp, rfl, hle, ?_, hmore⟩
      intro y hy
      rcases List.mem_append.mp hy with hpost | hlast
      · exact hlater y (by simp [hpost])
      · obtain rfl : y = (c, new) := by simpa using hlast
        rw [hread]
        exact hlater (c, last) (by simp)

/-- What the reader has delivered so far is `done`. -/
structure Delivered (h : MFile) (done : List UInt8) : Prop where
  layout : Layout h
  unstarted : h.current_read_p = none →
    h.is_empty = false ∧ done = [] ∧ ∀ x ∈ h.head, x.2.current_read_count = 0
  cursor : ∀ a, h.current_read_p = some a → Cursor h.head a done h.is_empty

theorem Delivered.prefix_content {h : MFile} {done : List UInt8} (hdelivered : Delivered h done) :
    done <+: content h := by
  cases hp : h.current_read_p with
  | none =>
    obtain ⟨_, rfl, _⟩ := hdelivered.unstarted hp
    exact List.nil_prefix
  | some a => exact (hdelivered.cursor a hp).prefix_contents

theorem Delivered.chunks {h h' : MFile} {done bytes : List UInt8} (hdelivered : Delivered h done)
    (hlayout : Layout h') (hpointer : h'.current_read_p = h.current_read_p)
    (hempty : h'.is_empty = h.is_empty) (hchunks : Chunks h.head h'.head bytes) :
    Delivered h' done := by
  refine ⟨hlayout, ?_, ?_⟩
  · intro hp
    rw [hpointer] at hp
    obtain ⟨hflag, hdone, hunread⟩ := hdelivered.unstarted hp
    refine ⟨by rw [hempty, hflag], hdone, ?_⟩
    generalize h.head = q at hchunks hunread
    generalize h'.head = q' at hchunks
    induction hchunks with
    | nil => exact hunread
    | cons hchunk _ ih =>
      apply ih
      obtain ⟨pre, a, old, new, rfl, rfl, _, hread⟩ := hchunk
      intro x hx
      rcases List.mem_append.mp hx with hpre | hlast
      · exact hunread x (by simp [hpre])
      · obtain rfl : x = (a, new) := by simpa using hlast
        cases old with
        | none => exact hread
        | some block => exact hread.trans (hunread (a, block) (by simp))
  · intro a hp
    rw [hpointer] at hp
    have hcursor := hdelivered.cursor a hp
    rw [hempty]
    generalize h.head = q at hchunks hcursor
    generalize h'.head = q' at hchunks
    induction hchunks with
    | nil => exact hcursor
    | cons hchunk _ ih => exact ih (hcursor.chunk hchunk)

/-! ## Reading on -/

/-- The reader's block counts as empty although bytes were appended to it since. -/
def stale (h : MFile) : Bool :=
  h.is_empty &&
    match h.head.read h.current_read_p with
    | .ok block => decide (block.current_read_count ≠ block.current_write_count)
    | .error _ => false

/-- What was delivered and what is ahead make up the content. -/
theorem Place.content_eq {h : MFile} {pre post : Tailq DataBlock} {a : Nat} {block : DataBlock}
    (hplace : Place h pre a block post) (hsolid : Solid h.head)
    (hdrained : h.is_empty = true → block.current_read_count = block.current_write_count)
    (hmore : h.is_empty = false → block.current_read_count < block.current_write_count) :
    content h = contents pre ++ block.written.take block.current_read_count ++
      ahead (coming h.is_empty a block post) := by
  have hlen := hplace.sized.length_written
  have hpost : ahead post = contents post := by
    apply ahead_eq_contents _ hplace.later
    intro x hx
    exact hsolid x (by rw [hplace.head]; exact List.mem_append_right _ (List.mem_cons_of_mem _ hx))
  have hsplit : content h = contents pre ++ (block.written ++ contents post) := by
    rw [content, hplace.head, contents_append, contents_cons]
  rw [hsplit, List.append_assoc]
  congr 1
  unfold coming
  by_cases hempty : h.is_empty = true
  · have hall := Nat.le_of_eq (hlen.trans (hdrained hempty).symm)
    rw [if_pos hempty, hpost, List.take_of_length_le hall]
  · have hfalse : h.is_empty = false := by simpa using hempty
    rw [if_neg hempty, ahead_cons_pos (hmore hfalse), hpost, ← List.append_assoc]
    dsimp only
    rw [List.take_append_drop]

theorem Delivered.faces {h : MFile} {done : List UInt8} (hdelivered : Delivered h done)
    (hfresh : stale h = false) : ∃ todo, Faces h todo ∧ Alert h ∧ content h = done ++ todo := by
  have hsound := hdelivered.layout.sound
  have hsolid := hdelivered.layout.solid
  cases hp : h.current_read_p with
  | none =>
    obtain ⟨hflag, rfl, hunread⟩ := hdelivered.unstarted hp
    refine ⟨ahead h.head, ⟨hsound, fun _ => ⟨hflag, hunread, rfl⟩, fun a ha => ?_⟩, fun block hblock => ?_, ?_⟩
    · rw [hp] at ha
      cases ha
    · rw [hp] at hblock
      cases hblock
    · rw [ahead_eq_contents hsolid hunread]
      rfl
  | some a =>
    obtain ⟨pre, block, post, hhead, rfl, hle, hlater, hmore⟩ := hdelivered.cursor a hp
    have hlen := (hdelivered.layout.filled (a, block) (by simp [hhead])).length_written
    dsimp only at hlen
    have hplace : Place h pre a block post := ⟨hsound, hp, hhead, by omega, hlater⟩
    have hdrained : h.is_empty = true → block.current_read_count = block.current_write_count := by
      intro hempty
      unfold stale at hfresh
      rw [hempty, hplace.read] at hfresh
      simpa using hfresh
    have hunread : h.is_empty = false → block.current_read_count < block.current_write_count := by
      intro hfalse
      have hlt := hmore hfalse
      omega
    exact ⟨_, hplace.faces hdrained, hplace.alert.mpr hunread, hplace.content_eq hsolid hdrained hunread⟩

theorem Faces.delivered {h : MFile} {done todo : List UInt8} (hfaces : Faces h todo) (hlayout : Layout h)
    (halert : Alert h) (hcontent : content h = done ++ todo) : Delivered h done := by
  refine ⟨hlayout, ?_, ?_⟩
  · intro hp
    obtain ⟨hflag, hunread, rfl⟩ := hfaces.unstarted hp
    refine ⟨hflag, ?_, hunread⟩
    rw [ahead_eq_contents hlayout.solid hunread] at hcontent
    exact List.self_eq_append_left.mp hcontent
  · intro a hp
    obtain ⟨pre, block, post, hplace, hdrained, rfl⟩ := hfaces.started a hp
    have hmore := hplace.alert.mp halert
    have hlen := hplace.sized.length_written
    have hle := hplace.le
    rw [hplace.content_eq hlayout.solid hdrained hmore] at hcontent
    refine ⟨pre, block, post, hplace.head, (List.append_cancel_right hcontent).symm, by omega, hplace.later, ?_⟩
    intro hfalse
    have hlt := hmore hfalse
    omega

/-- Pointing the reader to the first block delivers nothing. -/
theorem Delivered.start {h : MFile} {done : List UInt8} (hdelivered : Delivered h done) {a : Nat}
    (hstart : read_start h = some a) : Delivered { h with current_read_p := some a } done := by
  have hsound := hdelivered.layout.sound.read_start hstart
  have hlayout := hdelivered.layout.of_same (SameStore.reader h (some a) h.is_empty) hsound
  unfold read_start at hstart
  cases hp : h.current_read_p with
  | none =>
    obtain ⟨hflag, rfl, hunread⟩ := hdelivered.unstarted hp
    rw [hp, Option.isNone_none, if_pos rfl] at hstart
    obtain ⟨x, hx, rfl⟩ := Option.map_eq_some_iff.mp hstart
    obtain ⟨rest, hhead⟩ := List.head?_eq_some_iff.mp hx
    have hfilled := hdelivered.layout.filled x (by simp [hhead])
    have hpos := hfilled.pos
    have hlen := hfilled.length_written
    have hzero := hunread x (by simp [hhead])
    refine ⟨hlayout, nofun, fun b hb => ?_⟩
    obtain rfl : x.1 = b := Option.some.inj hb
    refine ⟨[], x.2, rest, hhead, by rw [hzero]; rfl, by omega, fun y hy => hunread y (by simp [hhead, hy]),
      fun _ => by omega⟩
  | some b =>
    rw [hp, Option.isNone_some] at hstart
    obtain rfl : b = a := Option.some.inj hstart
    have hsame : { h with current_read_p := some b } = h := by rw [← hp]
    rwa [hsame]

/-! ## Runs of writes and reads -/

/-- A read that asks for bytes must not find its block stale. -/
def ReadSafe (h : MFile) : Op → Prop
  | .mread len => 0 < len → stale h = false
  | .mwrite _ _ => True
  | .mwrite_head _ _ => True
  | .mgetc _ => True
  | .mseek => True
  | .mseek_pos _ => True

theorem mread_delivers {h : MFile} {done : List UInt8} (hdelivered : Delivered h done) {len : Int}
    (hsafe : ReadSafe h (.mread len)) :
    ∃ h' rc bytes, mread h len = .ok (h', rc, bytes) ∧ Delivered h' (done ++ bytes) ∧ SameStore h h' ∧
      (rc < len → done ++ bytes = content h) := by
  by_cases hlen : 0 < len
  · obtain ⟨todo, hfaces, halert, hcontent⟩ := hdelivered.faces (hsafe hlen)
    obtain ⟨h', hread, hsame, hleft, halert', _⟩ := mread_faces hfaces len
    have hsolid := hdelivered.layout.solid
    have hfaces' := hleft (Or.inl hsolid)
    refine ⟨h', _, _, hread, ?_, hsame, ?_⟩
    · apply hfaces'.delivered (hdelivered.layout.of_same hsame hfaces'.sound) (halert' hsolid halert)
      rw [hsame.content_eq, hcontent, List.append_assoc, List.take_append_drop]
    · intro hshort
      rw [hcontent]
      congr 1
      apply List.take_of_length_le
      by_cases hempty : h.head = []
      · have hnil : content h = [] := by rw [content, hempty]; rfl
        rw [hcontent, List.append_eq_nil_iff] at hnil
        rw [hnil.2, List.length_nil]
        omega
      · rw [if_neg hempty, List.length_take] at hshort
        omega
  · unfold mread
    cases hstart : read_start h with
    | none =>
      obtain ⟨hempty, rfl⟩ : h.head = [] ∧ done = [] := by
        unfold read_start at hstart
        cases hp : h.current_read_p with
        | some b => simp [hp] at hstart
        | none => exact ⟨by simpa [hp, Tailq.first] using hstart, (hdelivered.unstarted hp).2.1⟩
      refine ⟨h, -1, [], rfl, hdelivered, SameStore.refl h, fun _ => ?_⟩
      rw [content, hempty]
      rfl
    | some a =>
      have hloop : mread_loop len.toNat { h with current_read_p := some a } len [] =
          .ok ({ h with current_read_p := some a }, []) := by
        unfold mread_loop
        rw [if_neg (by simpa using hlen)]
      dsimp only
      rw [hloop, ok_bind]
      refine ⟨_, 0, [], rfl, ?_, SameStore.reader h (some a) h.is_empty, fun hshort => absurd hshort hlen⟩
      rw [List.append_nil]
      exact hdelivered.start hstart

/-- A write of any length that the caller's buffer covers; a negative length
    writes nothing. -/
theorem mwrite_delivers {alloc : Alloc} (halloc : ∀ n, (alloc n).isSome) {h : MFile} {done : List UInt8}
    (hdelivered : Delivered h done) (hsize : 0 < h.DATA_BLOCK_SIZE) {data : List UInt8} {len : Int}
    (hlen : len ≤ data.length) :
    ∃ h', mwrite alloc h data len = .ok (h', 1) ∧ Delivered h' done ∧
      content h' = content h ++ data.take len.toNat ∧ h'.DATA_BLOCK_SIZE = h.DATA_BLOCK_SIZE := by
  by_cases hnonneg : 0 ≤ len
  · obtain ⟨n, rfl⟩ := Int.eq_ofNat_of_zero_le hnonneg
    obtain ⟨h', hwrite, hlayout, huntouched, hchunks⟩ :=
      mwrite_spec halloc hdelivered.layout hsize (by omega : n ≤ data.length)
    exact ⟨h', hwrite, hdelivered.chunks hlayout huntouched.current_read_p huntouched.is_empty hchunks,
      hchunks.contents_eq, huntouched.size⟩
  · obtain ⟨⟨nodup, fresh, block_num, filled, unwritten, writer, reader⟩, unstarted, cursor⟩ := hdelivered
    refine ⟨{ h with total_size := h.total_size + len }, ?_,
      ⟨⟨nodup, fresh, block_num, filled, unwritten, writer, reader⟩, unstarted, cursor⟩, ?_, rfl⟩
    · unfold mwrite mwrite_loop
      rw [if_neg (by omega)]
    · rw [show len.toNat = 0 by omega, List.take_zero, List.append_nil]
      rfl

/-- A write or a read, the write covered by the caller's buffer. -/
def Op.Streams : Op → Prop
  | .mwrite data len => len ≤ data.length
  | .mread _ => True
  | .mwrite_head _ _ => False
  | .mgetc _ => False
  | .mseek => False
  | .mseek_pos _ => False

/-- The bytes that a call writes. -/
def Op.bytes : Op → List UInt8
  | .mwrite data len => data.take len.toNat
  | .mwrite_head data len => data.take len.toNat
  | .mread _ => []
  | .mgetc _ => []
  | .mseek => []
  | .mseek_pos _ => []

/-- The bytes that a read returns. -/
def Outcome.bytes : Outcome → List UInt8
  | .wrote _ => []
  | .read _ bytes => bytes
  | .got c => [c]
  | .sought => []

def written_by (ops : List Op) : List UInt8 := (ops.map Op.bytes).flatten

def returned_by (outs : List Outcome) : List UInt8 := (outs.map Outcome.bytes).flatten

/-- After every call, what was read is a prefix of what was written, and a read
    that came up short has returned all that was written before it. -/
structure FirstInFirstOut (ops : List Op) (outs : List Outcome) : Prop where
  in_order : ∀ n, returned_by (outs.take n) <+: written_by (ops.take n)
  complete : ∀ n len rc bytes, ops[n]? = some (.mread len) → outs[n]? = some (.read rc bytes) →
    rc < len → returned_by (outs.take (n + 1)) = written_by (ops.take n)

/-- One write or safe read. -/
theorem exec_delivers {alloc : Alloc} (halloc : ∀ n, (alloc n).isSome) {h : MFile} {done : List UInt8}
    (hdelivered : Delivered h done) (hsize : 0 < h.DATA_BLOCK_SIZE) {op : Op} (hop : op.Streams)
    (hsafe : ReadSafe h op) :
    ∃ h' out, exec alloc h op = .ok (h', out) ∧ Delivered h' (done ++ out.bytes) ∧
      content h' = content h ++ op.bytes ∧ h'.DATA_BLOCK_SIZE = h.DATA_BLOCK_SIZE ∧
      ∀ len rc bytes, op = .mread len → out = .read rc bytes → rc < len →
        done ++ bytes = content h := by
  cases op with
  | mwrite data len =>
    obtain ⟨h', hwrite, hdelivered', hcontent, hsame⟩ := mwrite_delivers halloc hdelivered hsize hop
    refine ⟨h', .wrote 1, ?_, by simpa [Outcome.bytes] using hdelivered', hcontent, hsame, by simp⟩
    simp only [exec, hwrite, ok_bind]
  | mread len =>
    obtain ⟨h', rc, bytes, hread, hdelivered', hsame, hall⟩ := mread_delivers hdelivered hsafe
    refine ⟨h', .read rc bytes, ?_, hdelivered', ?_, hsame.size, ?_⟩
    · simp only [exec, hread, ok_bind]
    · rw [hsame.content_eq]
      exact (List.append_nil _).symm
    · intro len' rc' bytes' hop hout
      cases hop
      cases hout
      exact hall
  | mwrite_head data len => exact hop.elim
  | mgetc beyond => exact hop.elim
  | mseek => exact hop.elim
  | mseek_pos pos => exact hop.elim

theorem run_delivers {alloc : Alloc} (halloc : ∀ n, (alloc n).isSome) {ops : List Op} {h : MFile}
    {done : List UInt8} (hdelivered : Delivered h done) (hsize : 0 < h.DATA_BLOCK_SIZE)
    (hops : ∀ op ∈ ops, op.Streams) (hsafe : Guarded (exec alloc) ReadSafe h ops) :
    ∃ h' outs, run (exec alloc) h ops = .ok (h', outs) ∧
      (∀ n, done ++ returned_by (outs.take n) <+: content h ++ written_by (ops.take n)) ∧
      ∀ n len rc bytes, ops[n]? = some (.mread len) → outs[n]? = some (.read rc bytes) → rc < len →
        done ++ returned_by (outs.take (n + 1)) = content h ++ written_by (ops.take n) := by
  induction ops generalizing h done with
  | nil =>
    refine ⟨h, [], rfl, fun n => ?_, by simp⟩
    simpa [returned_by, written_by] using hdelivered.prefix_content
  | cons op ops ih =>
    obtain ⟨h₁, out, hexec, hdelivered₁, hcontent₁, hsame, hall⟩ :=
      exec_delivers halloc hdelivered hsize (hops op (by simp)) hsafe.1
    obtain ⟨h', outs, hrun, horder, hcomplete⟩ := ih hdelivered₁ (by rw [hsame]; exact hsize)
      (fun op' hop' => hops op' (by simp [hop'])) (hsafe.2 h₁ out hexec)
    have hreturned : ∀ n, returned_by ((out :: outs).take (n + 1)) =
        out.bytes ++ returned_by (outs.take n) := fun n => by simp [returned_by]
    have hwritten : ∀ n, written_by ((op :: ops).take (n + 1)) = op.bytes ++ written_by (ops.take n) :=
      fun n => by simp [written_by]
    refine ⟨h', out :: outs, run_cons_eq_ok_iff.mpr ⟨h₁, out, outs, hexec, hrun, rfl⟩, ?_, ?_⟩
    · intro n
      cases n with
      | zero => simpa [returned_by, written_by] using hdelivered.prefix_content
      | succ n =>
        have hprefix := horder n
        rw [hcontent₁] at hprefix
        rw [hreturned, hwritten, ← List.append_assoc, ← List.append_assoc]
        exact hprefix
    · intro n len rc bytes hop hout hshort
      cases n with
      | zero =>
        obtain rfl : op = .mread len := by simpa using hop
        obtain rfl : out = .read rc bytes := by simpa using hout
        simpa [returned_by, written_by, Outcome.bytes] using hall len rc bytes rfl rfl hshort
      | succ n =>
        have heq := hcomplete n len rc bytes (by simpa using hop) (by simpa using hout) hshort
        rw [hcontent₁] at heq
        rw [hreturned, hwritten, ← List.append_assoc, ← List.append_assoc]
        exact heq

/-- On a new handle of any block size, every interleaving of writes and reads of
    any lengths is first in, first out as long as no read is made while its block
    is noted as empty but has since been appended to. -/
theorem fifo_along_run {alloc : Alloc} (halloc : ∀ n, (alloc n).isSome) {size : Nat} (hsize : 1 ≤ size)
    {af fe : Bool} {h : MFile} (hopen : mopen alloc size af fe = .ok (some h)) {ops : List Op}
    (hops : ∀ op ∈ ops, op.Streams) (hsafe : Guarded (exec alloc) ReadSafe h ops) :
    ∃ h' outs, run (exec alloc) h ops = .ok (h', outs) ∧ FirstInFirstOut ops outs := by
  have hholds := holds_of_open hsize hopen
  have hstart : Delivered h [] ∧ content h = [] := by
    rw [eq_new_handle_of_mopen hopen] at hholds ⊢
    exact ⟨⟨hholds.layout, fun _ => ⟨rfl, rfl, by simp [new_handle]⟩, fun a ha => by cases ha⟩, rfl⟩
  obtain ⟨hdelivered, hempty⟩ := hstart
  obtain ⟨h', outs, hrun, horder, hcomplete⟩ :=
    run_delivers halloc hdelivered (by rw [hholds.block_size]; omega) hops hsafe
  rw [hempty] at horder hcomplete
  exact ⟨h', outs, hrun, horder, hcomplete⟩

instance (h : MFile) : ∀ op, Decidable (ReadSafe h op)
  | .mread len => inferInstanceAs (Decidable (0 < len → stale h = false))
  | .mwrite _ _ => .isTrue trivial
  | .mwrite_head _ _ => .isTrue trivial
  | .mgetc _ => .isTrue trivial
  | .mseek => .isTrue trivial
  | .mseek_pos _ => .isTrue trivial

instance : ∀ op : Op, Decidable op.Streams
  | .mwrite data len => inferInstanceAs (Decidable (len ≤ data.length))
  | .mread _ => .isTrue trivial
  | .mwrite_head _ _ => .isFalse id
  | .mgetc _ => .isFalse id
  | .mseek => .isFalse id
  | .mseek_pos _ => .isFalse id

/-- Blocks of two bytes, read in two steps while a third block is begun. -/
theorem fifo_along_run_blocks :
    ∃ h h' outs, mopen (fun _ => some fun _ => 0) 2 true true = .ok (some h) ∧
      run (exec fun _ => some fun _ => 0) h
        [.mwrite [1, 2, 3, 4] 4, .mread 3, .mwrite [5] 1, .mread 9] = .ok (h', outs) ∧
      FirstInFirstOut [.mwrite [1, 2, 3, 4] 4, .mread 3, .mwrite [5] 1, .mread 9] outs := by
  have hopen : mopen (fun _ => some fun _ => 0) 2 true true = .ok (some (new_handle 2 true)) := rfl
  obtain ⟨h', outs, hrun, hfifo⟩ := fifo_along_run (by simp) (by decide) hopen
    (by decide : ∀ op ∈ [.mwrite [1, 2, 3, 4] 4, .mread 3, .mwrite [5] 1, .mread 9], Op.Streams op)
    (by decide +kernel)
  exact ⟨_, h', outs, hopen, hrun, hfifo⟩

/-- A read drains the only block, a write fills the block up and begins another,
    and the next read skips what was appended to the first. -/
theorem fifo_drained_block_skips :
    ∃ h h' outs, mopen (fun _ => some fun _ => 0) 2 true true = .ok (some h) ∧
      run (exec fun _ => some fun _ => 0) h [.mwrite [1] 1, .mread 1, .mwrite [2, 3] 2, .mread 1] =
        .ok (h', outs) ∧
      outs = [.wrote 1, .read 1 [1], .wrote 1, .read 1 [3]] ∧
      ¬FirstInFirstOut [.mwrite [1] 1, .mread 1, .mwrite [2, 3] 2, .mread 1] outs := by
  have hopen : mopen (fun _ => some fun _ => 0) 2 true true = .ok (some (new_handle 2 true)) := rfl
  obtain ⟨h', hrun⟩ := run_of_outputs (by decide +kernel : (run (exec fun _ => some fun _ => 0) (new_handle 2 true)
      [.mwrite [1] 1, .mread 1, .mwrite [2, 3] 2, .mread 1]).toOption.map Prod.snd =
        some [.wrote 1, .read 1 [1], .wrote 1, .read 1 [3]])
  refine ⟨_, h', _, hopen, hrun, rfl, fun hfifo => ?_⟩
  have hprefix := hfifo.in_order 4
  revert hprefix
  decide

end code_tools.mfile
