import CodeTools.MFile.Pieces

/-!
# Lines that are longer than the buffer

The line loop sets its result where a line ends. When the buffer is used up
before that, the result is 0 as at the end of the data, and the bytes are lost.
-/

namespace code_tools.mfile

open cmem machine

/-- Each piece is what comes next in the text, and an empty one comes only at its
    end. -/
def InOrder : List UInt8 → List (List UInt8) → Prop
  | _, [] => True
  | text, piece :: pieces =>
    (piece = [] → text = []) ∧ piece <+: text ∧ InOrder (text.drop piece.length) pieces

/-- A read with a buffer of `n` bytes. -/
def LineRead.Sized (n : Nat) (read : LineRead) : Prop := read.n = n ∧ read.buf.length = n

/-! ## One read -/

/-- The loop gives up on a line that has no end within its passes. -/
theorem Source.line_loop_long {n : Nat} (hn : 0 < n) {fuel : Nat} {plain buf : List UInt8}
    (rest : List UInt8) {d : Nat} (hplain : ∀ c ∈ plain, Plain c) (hlong : n ≤ plain.length)
    (hfuel : n ≤ fuel) (hroom : d + n ≤ buf.length) :
    ∃ s buf', line_loop fuel ⟨10, plain ++ rest⟩ buf d n = .ok (s, buf', 0) ∧ buf'.length = buf.length := by
  induction n generalizing fuel plain buf d with
  | zero => omega
  | succ n ih =>
    obtain ⟨fuel, rfl⟩ := Nat.exists_eq_add_one_of_ne_zero (by omega : fuel ≠ 0)
    cases plain with
    | nil =>
      rw [List.length_nil] at hlong
      omega
    | cons c plain =>
      rw [List.length_cons] at hlong
      have hfirst := hplain c List.mem_cons_self
      have hchar := line_char_cons c (plain ++ rest)
      by_cases hlast : n = 0
      · obtain ⟨hnul, hfeed, hreturn⟩ := hfirst
        obtain ⟨buf', hblit, hstores⟩ := blit_stores
          (by rw [List.length_singleton]; omega : d + [c].length ≤ buf.length)
        refine ⟨⟨10, plain ++ rest⟩, buf', ?_, hstores.length⟩
        rw [List.cons_append, line_loop, hchar, ok_bind]
        dsimp only
        rw [hblit, ok_bind, if_neg hreturn, if_neg hfeed, if_neg hnul, if_neg (by omega)]
      · obtain ⟨buf₁, hpass, hstores⟩ := line_loop_plain fuel (n + 1 : Nat) hchar hfirst (by omega)
          (by omega : d < buf.length)
        obtain ⟨s, buf', hloop, hlength⟩ := ih (by omega) (fun x hx => hplain x (List.mem_cons_of_mem c hx))
          (by omega : n ≤ plain.length) (by omega : n ≤ fuel)
          (by rw [hstores.length]; omega : d + 1 + n ≤ buf₁.length)
        have hcount : ((n + 1 : Nat) : Int) - 1 = n := by omega
        rw [List.cons_append, hpass, hcount]
        exact ⟨s, buf', hloop, hlength.trans hstores.length⟩

/-- A line that does not fit is taken for the end of the data. -/
theorem Stands.mread_line_long {h : MFile} {plain rest : List UInt8} (hstands : Stands h ⟨10, plain ++ rest⟩)
    (hplain : ∀ c ∈ plain, Plain c) {n : Nat} (hn : 3 ≤ n) (hlong : n < plain.length + 3) {read : LineRead}
    (hsized : read.Sized n) (alloc : Alloc) :
    ∃ h' reply, mfile.perform alloc h read.call = .ok (h', reply) ∧ reply.piece = [] := by
  obtain ⟨hn', hbuf⟩ := hsized
  have hlast : ((n : Int) - 1).toNat = n - 1 := by omega
  have hpasses : (n : Int) - 2 = (n - 2 : Nat) := by omega
  obtain ⟨buf₁, hblit, hstores⟩ := blit_stores
    (by rw [List.length_singleton]; omega : n - 1 + [(0 : UInt8)].length ≤ read.buf.length)
  obtain ⟨s, buf', hloop, _⟩ := Source.line_loop_long (by omega : 0 < n - 2) rest hplain
    (by omega) (by omega : n - 2 ≤ n) (by rw [hstores.length]; omega : 0 + (n - 2) ≤ buf₁.length)
  have hread : Source.read ⟨10, plain ++ rest⟩ read = .ok (s, .line 0 buf') := by
    unfold Source.read Source.line
    rw [hn', if_neg (by omega), hlast, hblit, ok_bind, if_pos (by omega), Int.toNat_natCast, hpasses, hloop]
    rfl
  obtain ⟨h', hperform, _⟩ := (hstands.perform alloc read).symm.of_ok hread
  exact ⟨h', _, hperform, rfl⟩

/-- A line that fits is delivered with its end. -/
theorem Awaits.read_line {h : MFile} {plain terminator rest : List UInt8}
    (hawaits : Awaits h (plain ++ (terminator ++ rest))) (hplain : ∀ c ∈ plain, Plain c) (hends : Ends terminator rest)
    {n : Nat} (hshort : plain.length + 3 ≤ n) {read : LineRead} (hsized : read.Sized n) (alloc : Alloc) :
    ∃ h' reply, mfile.perform alloc h read.call = .ok (h', reply) ∧ reply.Stays ∧
      reply.piece = plain ++ terminator ∧ Awaits h' rest := by
  obtain ⟨hn', hbuf⟩ := hsized
  obtain ⟨h', buf', hline, _, htake, hawaits'⟩ :=
    mread_line_line hawaits hplain hends hbuf hshort read.beyond
  refine ⟨h', .line (plain ++ terminator).length buf', ?_, length_le_of_take htake, htake, hawaits'⟩
  unfold LineRead.call mfile.perform
  rw [hn']
  dsimp only
  rw [hline, ok_bind]

theorem Awaits.stands {h : MFile} {left : List UInt8} (hawaits : Awaits h left) : Stands h ⟨10, left⟩ :=
  ⟨hawaits.faces, hawaits.solid, hawaits.alert, hawaits.ccache⟩

/-! ## Runs of reads -/

/-- What the reads should do: stay inside their buffers and deliver the text in
    order. -/
def ReadsInOrder (alloc : Alloc) (h : MFile) (text : List UInt8) (n : Nat) : Prop :=
  ∀ reads : List LineRead, (∀ read ∈ reads, read.Sized n) →
    ∃ h' replies, run (perform alloc) h (reads.map LineRead.call) = .ok (h', replies) ∧
      (∀ reply ∈ replies, reply.Stays) ∧ InOrder text (replies.map Reply.piece)

theorem exists_sized (n : Nat) : ∃ read : LineRead, read.Sized n :=
  ⟨⟨List.replicate n 0, n, fun _ => 0⟩, rfl, List.length_replicate⟩

/-- Lines that all fit are delivered in order. -/
theorem Awaits.reads_in_order {h : MFile} {text : List UInt8} {n : Nat} (hn : 3 ≤ n) (alloc : Alloc)
    (hawaits : Awaits h text) (hordinary : Ordinary n text) : ReadsInOrder alloc h text n := by
  intro reads hsized
  induction reads generalizing h text with
  | nil => exact ⟨h, [], rfl, nofun, trivial⟩
  | cons read reads ih =>
    obtain ⟨plain, terminator, rest, rfl, hplain, hends, hshort, _, _, hordinary'⟩ := hordinary.split hn
    obtain ⟨h₁, reply, hperform, hstays, hpiece, hawaits₁⟩ :=
      hawaits.read_line hplain hends hshort (hsized read List.mem_cons_self) alloc
    obtain ⟨h', replies, hrun, hinside, horder⟩ :=
      ih hawaits₁ hordinary' fun other hother => hsized other (List.mem_cons_of_mem read hother)
    refine ⟨h', _, run_cons_eq_ok_iff.mpr ⟨h₁, reply, replies, hperform, hrun, rfl⟩,
      List.forall_mem_cons.mpr ⟨hstays, hinside⟩, ?_⟩
    rw [List.map_cons, hpiece, ← List.append_assoc]
    refine ⟨fun hempty => ?_, List.prefix_append _ _, ?_⟩
    · rcases hends with rfl | rfl | ⟨rfl, rfl⟩
      · simp at hempty
      · simp at hempty
      · rw [hempty, List.append_nil]
    · rwa [List.drop_left]

/-- Reads that are in order after a line are so from the rest of the text on. -/
theorem ReadsInOrder.after {alloc : Alloc} {h h₁ : MFile} {piece rest : List UInt8} {n : Nat}
    (horder : ReadsInOrder alloc h (piece ++ rest) n) {read : LineRead} (hsized : read.Sized n) {reply : Reply}
    (hperform : perform alloc h read.call = .ok (h₁, reply)) (hpiece : reply.piece = piece) :
    ReadsInOrder alloc h₁ rest n := by
  intro reads hreads
  obtain ⟨h', replies, hrun, hstays, hall⟩ := horder (read :: reads) (List.forall_mem_cons.mpr ⟨hsized, hreads⟩)
  rw [List.map_cons] at hrun
  obtain ⟨h₂, reply', replies', hperform', hrest, rfl⟩ := run_cons_eq_ok_iff.mp hrun
  obtain ⟨rfl, rfl⟩ := ok_inj hperform hperform'
  rw [List.map_cons, hpiece] at hall
  obtain ⟨_, _, hnext⟩ := hall
  rw [List.drop_left] at hnext
  exact ⟨h', replies', hrest, fun reply hreply => hstays reply (List.mem_cons_of_mem _ hreply), hnext⟩

/-- Only lines that fit are delivered in order. -/
theorem Awaits.short_of_reads {text : List UInt8} {n : Nat} (hn : 3 ≤ n) (alloc : Alloc) {h : MFile}
    (hawaits : Awaits h text) (hnul : 0 ∉ text) (hreturn : 13 ∉ text) (horder : ReadsInOrder alloc h text n) :
    ∀ line ∈ lines text, (body line).length + 3 ≤ n := by
  have hpaired : ∀ i : Nat, text[i]? = some 13 → text[i + 1]? = some 10 :=
    fun i hi => absurd (List.mem_of_getElem? hi) hreturn
  obtain ⟨plain, terminator, rest, rfl, hplain, hends⟩ := exists_cut hnul hpaired
  obtain ⟨read, hsized⟩ := exists_sized n
  have hshort : plain.length + 3 ≤ n := by
    by_contra hlong
    obtain ⟨h₁, reply, hperform, hpiece⟩ := hawaits.stands.mread_line_long hplain hn (by omega) hsized alloc
    obtain ⟨h', replies, hrun, _, hall⟩ := horder [read] (by simpa using hsized)
    obtain ⟨h₂, reply', replies', hperform', hrest, rfl⟩ := run_cons_eq_ok_iff.mp hrun
    obtain ⟨_, rfl⟩ := ok_inj hperform hperform'
    have hempty := hall.1 hpiece
    rw [(List.append_eq_nil_iff.mp hempty).1, List.length_nil] at hlong
    omega
  obtain ⟨h₁, reply, hperform, _, hpiece, hawaits₁⟩ := hawaits.read_line hplain hends hshort hsized alloc
  obtain ⟨hfirst, hothers, _⟩ := lines_cut hplain hends
  rw [← List.append_assoc] at horder hnul hreturn
  intro line hline
  cases hlines : lines (plain ++ (terminator ++ rest)) with
  | nil =>
    rw [hlines] at hline
    cases hline
  | cons first others =>
    rw [hlines] at hfirst hothers hline
    obtain rfl : first = plain ++ terminator := hfirst
    obtain rfl : others = lines rest := hothers
    rcases List.mem_cons.mp hline with rfl | hrest
    · rwa [body_append hplain hends]
    · have hless : rest.length < (plain ++ (terminator ++ rest)).length := by
        rw [← List.append_assoc, List.length_append]
        by_contra hnot
        have hempty := List.length_eq_zero_iff.mp (by omega : (plain ++ terminator).length = 0)
        obtain ⟨rfl, rfl⟩ := List.append_eq_nil_iff.mp hempty
        rcases hends with hends | hends | ⟨_, rfl⟩
        · cases hends
        · cases hends
        · cases hrest
      exact hawaits₁.short_of_reads hn alloc (fun hmem => hnul (List.mem_append_right _ hmem))
        (fun hmem => hreturn (List.mem_append_right _ hmem)) (horder.after hsized hperform hpiece) line hrest
termination_by text.length

/-- Line reads with buffers of `n` bytes deliver a text without carriage returns
    in order, and return 0 only at its end, exactly when all its lines fit. -/
theorem mread_line_in_order_iff {alloc : Alloc} {size : Nat} {af fe : Bool} {h h' : MFile}
    (hopen : mopen alloc size af fe = .ok (some h)) {calls : List Call} {replies : List Reply}
    (hfills : ∀ call ∈ calls, call.Fills) (hcovered : ∀ call ∈ calls, call.Covered)
    (hnonempty : ∀ call ∈ calls, call.Nonempty) (hrun : run (perform alloc) h calls = .ok (h', replies))
    (hnul : 0 ∉ content h') (hreturn : 13 ∉ content h') {n : Nat} (hn : 3 ≤ n) :
    ReadsInOrder alloc h' (content h') n ↔ ∀ line ∈ lines (content h'), (body line).length + 3 ≤ n := by
  obtain ⟨_, hsize, hopen⟩ := open_sized hopen
  have hawaits := (fresh_along_run hsize hopen hfills hcovered hnonempty hrun).awaits
  constructor
  · exact hawaits.short_of_reads hn alloc hnul hreturn
  · intro hshort
    exact hawaits.reads_in_order hn alloc
      ⟨hnul, fun i hi => absurd (List.mem_of_getElem? hi) hreturn, hshort⟩

/-- A line of two bytes and its end fill a buffer of five. -/
theorem mread_line_in_order_full :
    ∃ h' replies, run (perform fun _ => some fun _ => 0) (new_handle 2 true)
        [.op (.mwrite [97, 98, 10, 99] 4)] = .ok (h', replies) ∧ content h' = [97, 98, 10, 99] ∧
      ReadsInOrder (fun _ => some fun _ => 0) h' (content h') 5 := by
  have hopen : mopen (fun _ => some fun _ => 0) 2 true true = .ok (some (new_handle 2 true)) := rfl
  obtain ⟨h', replies, hrun, hcontent⟩ := run_of_view content
    (by decide +kernel : (run (perform fun _ => some fun _ => 0) (new_handle 2 true)
      [.op (.mwrite [97, 98, 10, 99] 4)]).toOption.map (fun r => content r.1) = some [97, 98, 10, 99])
  refine ⟨h', replies, hrun, hcontent, (mread_line_in_order_iff hopen (by simp [Call.Fills])
    (by decide : ∀ call ∈ _, Call.Covered call) (by decide : ∀ call ∈ _, Call.Nonempty call) hrun ?_ ?_
    (by decide)).mpr ?_⟩
  · rw [hcontent]
    decide
  · rw [hcontent]
    decide
  · rw [hcontent]
    decide

/-- The first two bytes of the line are gone, and the read that met them returns 0
    as at the end. -/
theorem mread_line_drops_long_line :
    ∃ h' replies h'' replies', run (perform fun _ => some fun _ => 0) (new_handle 8 true)
        [.op (.mwrite [97, 98, 99, 10] 4)] = .ok (h', replies) ∧ content h' = [97, 98, 99, 10] ∧
      run (perform fun _ => some fun _ => 0) h'
        (List.replicate 2 (LineRead.call ⟨[1, 1, 1, 1], 4, fun _ => 0⟩)) = .ok (h'', replies') ∧
      replies'.map Reply.piece = [[], [99, 10]] ∧ ¬InOrder (content h') (replies'.map Reply.piece) := by
  obtain ⟨h', replies, hrun, hview⟩ := run_of_view
    (fun h => (content h, (run (perform fun _ => some fun _ => 0) h
      (List.replicate 2 (LineRead.call ⟨[1, 1, 1, 1], 4, fun _ => 0⟩))).toOption.map
        fun r => r.2.map Reply.piece))
    (by decide +kernel : (run (perform fun _ => some fun _ => 0) (new_handle 8 true)
      [.op (.mwrite [97, 98, 99, 10] 4)]).toOption.map (fun r => (content r.1,
        (run (perform fun _ => some fun _ => 0) r.1
          (List.replicate 2 (LineRead.call ⟨[1, 1, 1, 1], 4, fun _ => 0⟩))).toOption.map
            fun r => r.2.map Reply.piece)) =
      some ([97, 98, 99, 10], some [[], [99, 10]]))
  obtain ⟨hcontent, hpieces⟩ := Prod.mk.inj hview
  obtain ⟨⟨h'', replies'⟩, hreads, heq⟩ := eq_ok_of_view
    (fun r : MFile × List Reply => r.2.map Reply.piece) hpieces
  refine ⟨h', replies, h'', replies', hrun, hcontent, hreads, heq, ?_⟩
  rw [hcontent]
  dsimp only at heq
  rw [heq]
  rintro ⟨hend, _⟩
  cases hend rfl

end code_tools.mfile
