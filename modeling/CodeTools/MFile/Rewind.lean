import CodeTools.MFile.Pieces
import CodeTools.MFile.Seeking

/-!
# Reading lines again

`mseek` clears the read counts, the reader's pointer and its flag, but not the
byte that `mread_line` holds back.
-/

namespace code_tools.mfile

open cmem machine

/-! ## Reads before the rewind -/

/-- A call that only reads. -/
def Call.Reads : Call → Prop
  | .op x => x.Reads
  | .mread_line _ _ _ => True

instance : ∀ call : Call, Decidable call.Reads
  | .op x => inferInstanceAs (Decidable x.Reads)
  | .mread_line _ _ _ => .isTrue trivial

/-- At the end nothing is held back. -/
theorem Source.line_end {buf buf' : List UInt8} {n : Int} {s : Source} {r : Nat}
    (hline : line ⟨10, []⟩ buf n = .ok (s, buf', r)) : s = ⟨10, []⟩ := by
  unfold line at hline
  split at hline
  · cases hline
  obtain ⟨buf₁, _, hline⟩ := bind_eq_ok_iff.mp hline
  split at hline
  · cases hfuel : n.toNat with
    | zero =>
      rw [hfuel] at hline
      cases hline
    | succ fuel =>
      rw [hfuel] at hline
      obtain ⟨⟨s₁, c⟩, hchar, hline⟩ := bind_eq_ok_iff.mp hline
      cases hchar
      obtain ⟨buf₂, _, hline⟩ := bind_eq_ok_iff.mp hline
      cases hline
      rfl
  · cases hline
    rfl

/-- Reads of a handle without bytes hold nothing back. -/
theorem Stands.reads_nothing {h h' : MFile} (hstands : Stands h ⟨10, []⟩) {alloc : Alloc} {call : Call}
    (hreads : call.Reads) {reply : Reply} (hperform : mfile.perform alloc h call = .ok (h', reply)) :
    Stands h' ⟨10, []⟩ := by
  cases call with
  | mread_line buf n beyond =>
    obtain ⟨⟨h₁, buf₁, r⟩, hline, hdone⟩ := bind_eq_ok_iff.mp hperform
    cases hdone
    obtain ⟨s, hsource, hstands'⟩ := (hstands.mread_line buf n beyond).of_ok hline
    rwa [Source.line_end hsource] at hstands'
  | op op =>
    cases op with
    | mread len =>
      obtain ⟨h₁, hread, hsame, hfaces, halert, _⟩ := mread_faces hstands.faces len
      simp only [mfile.perform, exec, hread, ok_bind, Except.ok.injEq, Prod.mk.injEq] at hperform
      obtain ⟨rfl, _⟩ := hperform
      have hleft := hfaces (Or.inl hstands.solid)
      rw [List.drop_nil] at hleft
      exact ⟨hleft, hstands.solid.of_same hsame, halert hstands.solid hstands.alert,
        (mread_ccache hread).trans hstands.ccache⟩
    | mgetc beyond =>
      obtain ⟨h₁, hget, hstands'⟩ := hstands.mgetc beyond
      simp only [mfile.perform, exec, hget, ok_bind, Except.ok.injEq, Prod.mk.injEq] at hperform
      obtain ⟨rfl, _⟩ := hperform
      exact hstands'
    | mwrite data len => exact hreads.elim
    | mwrite_head data len => exact hreads.elim
    | mseek => exact hreads.elim
    | mseek_pos pos => exact hreads.elim

/-- A call that reads keeps the store. -/
theorem perform_reads {alloc : Alloc} {h h' : MFile} {call : Call} {reply : Reply} (hsound : Sound h)
    (hreads : call.Reads) (hperform : perform alloc h call = .ok (h', reply)) : SameStore h h' ∧ Sound h' := by
  rcases perform_cases hsound hperform with ⟨data, len, rc, rfl, _⟩ | ⟨data, len, rc, rfl, _⟩ | ⟨_, hkept⟩
  · exact hreads.elim
  · exact hreads.elim
  · exact hkept

/-- Whatever was read of a handle, a rewind puts the reader before everything, and
    only the byte held back is left of what was read. -/
theorem Fresh.stands_mseek {alloc : Alloc} {h h₁ : MFile} (hfresh : Fresh h) {before : List Call}
    (hreads : ∀ call ∈ before, call.Reads) {replies : List Reply}
    (hrun : run (perform alloc) h before = .ok (h₁, replies)) :
    Stands (mseek h₁) ⟨h₁.ccache, content h⟩ ∧ (content h = [] → h₁.ccache = 10) := by
  constructor
  · have hkeeps := run_keeps_of_mem (fun h' => SameStore h h' ∧ Sound h') ?_
      ⟨SameStore.refl h, hfresh.sound⟩ hreads hrun
    · obtain ⟨hsame, hsound⟩ := hkeeps
      have hstreams := mseek_streams (layout_iff.mpr ⟨hsound, hfresh.solid.of_same hsame⟩)
      rw [hsame.content_eq] at hstreams
      exact ⟨hstreams.faces, hstreams.solid, hstreams.alert, rfl⟩
    · rintro h₂ call h₃ reply ⟨hsame, hsound⟩ hcall hperform
      obtain ⟨hsame', hsound'⟩ := perform_reads hsound hcall hperform
      exact ⟨hsame.trans hsame', hsound'⟩
  · intro hempty
    have hstands := hfresh.stands
    rw [hempty] at hstands
    have hkeeps := run_keeps_of_mem (fun h' => Stands h' ⟨10, []⟩) ?_ hstands hreads hrun
    · exact hkeeps.ccache
    · intro h₂ call h₃ reply hstands hcall hperform
      exact hstands.reads_nothing hcall hperform

/-! ## Lines after the rewind -/

/-- Only with nothing held back does a source deliver as many bytes as a source
    that was never read. -/
theorem Source.held_of_total {c : UInt8} {text : List UInt8} (hempty : text = [] → c = 10)
    (htotal : total ⟨c, text⟩ = total ⟨10, text⟩) : c = 10 := by
  by_contra hheld
  have hless := tally_lt text
  have hlength := (tally_spec text).1.1
  have hpos := List.length_pos_iff.mpr fun hnil => hheld (hempty hnil)
  have hnever : total ⟨10, text⟩ = tally false text := rfl
  rw [hnever] at htotal
  unfold total at htotal
  rw [if_neg hheld] at htotal
  dsimp only at htotal
  split at htotal
  · omega
  split at htotal
  · omega
  · omega

/-- After a rewind line reads return what they return on a handle that holds the
    same bytes and was never read exactly when no byte is held back. -/
theorem mseek_resets_lines_iff {alloc alloc₂ : Alloc} {size size₂ : Nat} {af fe af₂ fe₂ : Bool}
    {h₀ h h₁ k₀ k : MFile} (hopen : mopen alloc size af fe = .ok (some h₀))
    (hopen₂ : mopen alloc₂ size₂ af₂ fe₂ = .ok (some k₀)) {calls calls₂ : List Call} {replies replies₂ : List Reply}
    (hfills : ∀ call ∈ calls, call.Fills) (hcovered : ∀ call ∈ calls, call.Covered)
    (hnonempty : ∀ call ∈ calls, call.Nonempty) (hrun : run (perform alloc) h₀ calls = .ok (h, replies))
    (hfills₂ : ∀ call ∈ calls₂, call.Fills) (hcovered₂ : ∀ call ∈ calls₂, call.Covered)
    (hnonempty₂ : ∀ call ∈ calls₂, call.Nonempty) (hrun₂ : run (perform alloc₂) k₀ calls₂ = .ok (k, replies₂))
    (hcontent : content k = content h) (hnul : 0 ∉ content h) {before : List Call}
    (hreads : ∀ call ∈ before, call.Reads) {first : List Reply}
    (hbefore : run (perform alloc) h before = .ok (h₁, first)) :
    (∀ reads : List LineRead, (run (perform alloc) (mseek h₁) (reads.map LineRead.call)).map Prod.snd =
      (run (perform alloc₂) k (reads.map LineRead.call)).map Prod.snd) ↔ h₁.ccache = 10 := by
  obtain ⟨_, hsize, hopen⟩ := open_sized hopen
  obtain ⟨_, hsize₂, hopen₂⟩ := open_sized hopen₂
  have hfresh := fresh_along_run hsize hopen hfills hcovered hnonempty hrun
  have hstands₂ := (fresh_along_run hsize₂ hopen₂ hfills₂ hcovered₂ hnonempty₂ hrun₂).stands
  obtain ⟨hstands, hempty⟩ := hfresh.stands_mseek hreads hbefore
  rw [hcontent] at hstands₂
  constructor
  · intro hall
    apply Source.held_of_total hempty
    apply Source.total_eq_of_pieces hnul hnul
    intro k
    obtain ⟨reads, hlength, hroomy⟩ := exists_roomy ((content h).length + 1) k
    have hroom : Source.size ⟨h₁.ccache, content h⟩ ≤ (content h).length + 1 := by
      unfold Source.size
      dsimp only
      split
      · exact Nat.le_succ _
      · exact Nat.le_refl _
    obtain ⟨_, replies₁, hrun₁, _, hpieces₁⟩ := hstands.run_pieces alloc hnul hroom hroomy
    obtain ⟨_, replies₂, hrun₂, _, hpieces₂⟩ := hstands₂.run_pieces alloc₂ hnul (Nat.le_succ _) hroomy
    have heq := hall reads
    rw [hrun₁, hrun₂] at heq
    obtain rfl : replies₁ = replies₂ := Except.ok.inj heq
    rw [← hlength, ← hpieces₁, hpieces₂]
  · intro hheld reads
    rw [hheld] at hstands
    rw [(hstands.run alloc reads).outputs, (hstands₂.run alloc₂ reads).outputs]

/-- A line and a byte more were read before the rewind. -/
theorem mseek_resets_lines_blocks :
    ∃ h replies h₁ first k replies₂, run (perform fun _ => some fun _ => 0) (new_handle 2 true)
        [.op (.mwrite [97, 13, 10, 98, 99] 5)] = .ok (h, replies) ∧
      run (perform fun _ => some fun _ => 0) h [.mread_line [1, 1, 1, 1, 1, 1] 6 fun _ => 0, .op (.mgetc 0)] =
        .ok (h₁, first) ∧
      run (perform fun _ => some fun _ => 7) (new_handle 3 true)
        [.op (.mwrite [10, 98, 99] 3), .op (.mwrite_head [97, 13] 2)] = .ok (k, replies₂) ∧
      ∀ reads : List LineRead, (run (perform fun _ => some fun _ => 0) (mseek h₁) (reads.map LineRead.call)).map Prod.snd =
        (run (perform fun _ => some fun _ => 7) k (reads.map LineRead.call)).map Prod.snd := by
  have hopen : mopen (fun _ => some fun _ => 0) 2 true true = .ok (some (new_handle 2 true)) := rfl
  have hopen₂ : mopen (fun _ => some fun _ => 7) 3 true true = .ok (some (new_handle 3 true)) := rfl
  obtain ⟨view, hview⟩ : ∃ view : MFile → List UInt8 × Option UInt8, view = fun h =>
      (content h, (run (perform fun _ => some fun _ => 0) h
        [.mread_line [1, 1, 1, 1, 1, 1] 6 fun _ => 0, .op (.mgetc 0)]).toOption.map fun r => r.1.ccache) := ⟨_, rfl⟩
  obtain ⟨h, replies, hrun, hviewed⟩ := run_of_view view
    (by rw [hview]; decide +kernel : (run (perform fun _ => some fun _ => 0) (new_handle 2 true)
      [.op (.mwrite [97, 13, 10, 98, 99] 5)]).toOption.map (fun r => view r.1) =
      some ([97, 13, 10, 98, 99], some 10))
  rw [hview] at hviewed
  obtain ⟨hcontent, hccache⟩ := Prod.mk.inj hviewed
  obtain ⟨h₁, first, hbefore, hheld⟩ := run_of_view MFile.ccache hccache
  obtain ⟨k, replies₂, hrun₂, hcontent₂⟩ := run_of_view content
    (by decide +kernel : (run (perform fun _ => some fun _ => 7) (new_handle 3 true)
      [.op (.mwrite [10, 98, 99] 3), .op (.mwrite_head [97, 13] 2)]).toOption.map (fun r => content r.1) =
      some [97, 13, 10, 98, 99])
  refine ⟨h, replies, h₁, first, k, replies₂, hrun, hbefore, hrun₂,
    (mseek_resets_lines_iff hopen hopen₂ (by simp [Call.Fills])
      (by decide : ∀ call ∈ _, Call.Covered call) (by decide : ∀ call ∈ _, Call.Nonempty call) hrun
      (by simp [Call.Fills]) (by decide : ∀ call ∈ _, Call.Covered call)
      (by decide : ∀ call ∈ _, Call.Nonempty call) hrun₂ (hcontent₂.trans hcontent.symm) ?_
      (by simp [Call.Reads, Op.Reads]) hbefore).mpr hheld⟩
  rw [hcontent]
  decide

/-- The byte after a bare carriage return was held back when the handle was
    rewound, and the first line begins with it. -/
theorem mseek_keeps_held_byte :
    ∃ h replies h₁ first h₂ h₃ again never, run (perform fun _ => some fun _ => 0) (new_handle 8 true)
        [.op (.mwrite [97, 13, 98] 3)] = .ok (h, replies) ∧
      run (perform fun _ => some fun _ => 0) h [LineRead.call ⟨[1, 1, 1, 1, 1, 1], 6, fun _ => 0⟩] = .ok (h₁, first) ∧
      run (perform fun _ => some fun _ => 0) (mseek h₁) [LineRead.call ⟨[1, 1, 1, 1, 1, 1], 6, fun _ => 0⟩] =
        .ok (h₂, again) ∧
      run (perform fun _ => some fun _ => 0) h [LineRead.call ⟨[1, 1, 1, 1, 1, 1], 6, fun _ => 0⟩] = .ok (h₃, never) ∧
      content h = [97, 13, 98] ∧ again.map Reply.piece = [[98, 13]] ∧ never.map Reply.piece = [[97, 13]] ∧
      again ≠ never := by
  obtain ⟨h, replies, hrun, hview⟩ := run_of_view
    (fun h => (content h, (run (perform fun _ => some fun _ => 0) h
      [LineRead.call ⟨[1, 1, 1, 1, 1, 1], 6, fun _ => 0⟩]).toOption.map fun r =>
        (r.2.map Reply.piece, (run (perform fun _ => some fun _ => 0) (mseek r.1)
          [LineRead.call ⟨[1, 1, 1, 1, 1, 1], 6, fun _ => 0⟩]).toOption.map fun r => r.2.map Reply.piece)))
    (by decide +kernel : (run (perform fun _ => some fun _ => 0) (new_handle 8 true)
      [.op (.mwrite [97, 13, 98] 3)]).toOption.map (fun r => (content r.1,
        (run (perform fun _ => some fun _ => 0) r.1
          [LineRead.call ⟨[1, 1, 1, 1, 1, 1], 6, fun _ => 0⟩]).toOption.map fun r =>
            (r.2.map Reply.piece, (run (perform fun _ => some fun _ => 0) (mseek r.1)
              [LineRead.call ⟨[1, 1, 1, 1, 1, 1], 6, fun _ => 0⟩]).toOption.map fun r => r.2.map Reply.piece))) =
      some ([97, 13, 98], some ([[97, 13]], some [[98, 13]])))
  obtain ⟨hcontent, hlines⟩ := Prod.mk.inj hview
  obtain ⟨⟨h₁, first⟩, hfirst, hboth⟩ := eq_ok_of_view (fun r : MFile × List Reply =>
    (r.2.map Reply.piece, (run (perform fun _ => some fun _ => 0) (mseek r.1)
      [LineRead.call ⟨[1, 1, 1, 1, 1, 1], 6, fun _ => 0⟩]).toOption.map fun r => r.2.map Reply.piece)) hlines
  obtain ⟨hnever, hagain⟩ := Prod.mk.inj hboth
  obtain ⟨⟨h₂, again⟩, hsecond, heq⟩ := eq_ok_of_view (fun r : MFile × List Reply => r.2.map Reply.piece) hagain
  have hagain : again.map Reply.piece = [[98, 13]] := heq
  have hnever : first.map Reply.piece = [[97, 13]] := hnever
  have hdiffer : again ≠ first := by
    intro hsame
    rw [hsame, hnever] at hagain
    cases hagain
  exact ⟨h, replies, h₁, first, h₂, h₁, again, first, hrun, hfirst, hsecond, hfirst, hcontent, hagain, hnever,
    hdiffer⟩

end code_tools.mfile
