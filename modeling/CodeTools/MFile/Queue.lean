import Mathlib.Data.List.Induction
import CodeTools.Lib.Ring
import CodeTools.Lib.Tailq

/-!
# The tail queue of `queue.h`

The macros on the links themselves. `tqe_prev` and `tqh_last` hold the address of
a `tqe_next` or of a `tqh_first`; `TAILQ_LAST` and `TAILQ_PREV` read such an
address as that of a head, whose second field is then a `tqe_prev`.
-/

namespace code_tools.queue

open cmem

/-! ## The macros -/

/-- `*p = v` for the address of a `tqe_next` or `tqh_first`. -/
def store (m : Cells) (p : Option Cell) (v : Ptr) : Except Fault Cells :=
  p.elim (.error .nullPointer) fun c => m.setNext c v

/-- The branches on whether there is a next element: its `tqe_prev` or `tqh_last`. -/
def set_back (m : Cells) (head : Nat) (next : Ptr) (p : Option Cell) : Except Fault Cells :=
  match next with
  | some b => m.setPrev (.entry b) p
  | none => m.setPrev (.head head) p

def TAILQ_INIT (m : Cells) (head : Nat) : Except Fault Cells := do
  let m ← m.setNext (.head head) none
  m.setPrev (.head head) (some (.head head))

def TAILQ_FIRST (m : Cells) (head : Nat) : Except Fault Ptr := do
  let h ← m.read (.head head)
  .ok h.next

def TAILQ_NEXT (m : Cells) (elm : Nat) : Except Fault Ptr := do
  let e ← m.read (.entry elm)
  .ok e.next

def TAILQ_LAST (m : Cells) (head : Nat) : Except Fault Ptr := do
  let h ← m.read (.head head)
  let e ← m.deref h.prev
  let f ← m.deref e.prev
  .ok f.next

def TAILQ_PREV (m : Cells) (elm : Nat) : Except Fault Ptr := do
  let e ← m.read (.entry elm)
  let f ← m.deref e.prev
  let g ← m.deref f.prev
  .ok g.next

def TAILQ_INSERT_HEAD (m : Cells) (head elm : Nat) : Except Fault Cells := do
  let first ← TAILQ_FIRST m head
  let m ← m.setNext (.entry elm) first
  let m ← set_back m head first (some (.entry elm))
  let m ← m.setNext (.head head) (some elm)
  m.setPrev (.entry elm) (some (.head head))

def TAILQ_INSERT_TAIL (m : Cells) (head elm : Nat) : Except Fault Cells := do
  let m ← m.setNext (.entry elm) none
  let h ← m.read (.head head)
  let m ← m.setPrev (.entry elm) h.prev
  let h ← m.read (.head head)
  let m ← store m h.prev (some elm)
  m.setPrev (.head head) (some (.entry elm))

def TAILQ_INSERT_AFTER (m : Cells) (head listelm elm : Nat) : Except Fault Cells := do
  let next ← TAILQ_NEXT m listelm
  let m ← m.setNext (.entry elm) next
  let m ← set_back m head next (some (.entry elm))
  let m ← m.setNext (.entry listelm) (some elm)
  m.setPrev (.entry elm) (some (.entry listelm))

def TAILQ_INSERT_BEFORE (m : Cells) (listelm elm : Nat) : Except Fault Cells := do
  let links ← m.read (.entry listelm)
  let m ← m.setPrev (.entry elm) links.prev
  let m ← m.setNext (.entry elm) (some listelm)
  let links ← m.read (.entry listelm)
  let m ← store m links.prev (some elm)
  m.setPrev (.entry listelm) (some (.entry elm))

def TAILQ_REMOVE (m : Cells) (head elm : Nat) : Except Fault Cells := do
  let e ← m.read (.entry elm)
  let m ← set_back m head e.next e.prev
  let e ← m.read (.entry elm)
  store m e.prev e.next

def TAILQ_CONCAT (m : Cells) (head1 head2 : Nat) : Except Fault Cells := do
  match ← TAILQ_FIRST m head2 with
  | none => .ok m
  | some first => do
    let h1 ← m.read (.head head1)
    let m ← store m h1.prev (some first)
    let m ← m.setPrev (.entry first) h1.prev
    let h2 ← m.read (.head head2)
    let m ← m.setPrev (.head head1) h2.prev
    TAILQ_INIT m head2

/-- The loop of `TAILQ_FOREACH` from `var` on; `body` only looks at the elements. -/
def foreach_loop (m : Cells) : Nat → Ptr → Except Fault (List Nat)
  | _, none => .ok []
  | 0, some _ => .error .outOfFuel
  | fuel + 1, some var => do
    let next ← TAILQ_NEXT m var
    let rest ← foreach_loop m fuel next
    .ok (var :: rest)

def TAILQ_FOREACH (m : Cells) (fuel head : Nat) : Except Fault (List Nat) := do
  let var ← TAILQ_FIRST m head
  foreach_loop m fuel var

def foreach_reverse_loop (m : Cells) : Nat → Ptr → Except Fault (List Nat)
  | _, none => .ok []
  | 0, some _ => .error .outOfFuel
  | fuel + 1, some var => do
    let prev ← TAILQ_PREV m var
    let rest ← foreach_reverse_loop m fuel prev
    .ok (var :: rest)

def TAILQ_FOREACH_REVERSE (m : Cells) (fuel head : Nat) : Except Fault (List Nat) := do
  let var ← TAILQ_LAST m head
  foreach_reverse_loop m fuel var

/-! ## What the macros write and read -/

variable {m m' : Cells} {h a b : Nat} {l r : List Nat}

theorem set_back_eq (m : Cells) (h : Nat) (r : List Nat) (p : Option Cell) :
    set_back m h r.head? p = m.setPrev (after h r) p := by
  cases r <;> rfl

theorem first_eq (hring : Ring m h r) : TAILQ_FIRST m h = .ok r.head? := by
  obtain ⟨_, ⟨hnext, _⟩, _⟩ := (ring_append (l := [])).mp hring
  obtain ⟨x, hread, hx⟩ := Cells.read_of_next hnext
  rw [after_ptr] at hx
  simp only [TAILQ_FIRST, show Cell.head h = before h [] from rfl, hread, ok_bind, hx]

theorem next_eq (hring : Ring m h (l ++ a :: r)) : TAILQ_NEXT m a = .ok r.head? := by
  obtain ⟨_, _, hrest⟩ := ring_append.mp hring
  obtain ⟨⟨hnext, _⟩, _⟩ := joined_cons.mp hrest
  obtain ⟨x, hread, hx⟩ := Cells.read_of_next hnext
  rw [after_ptr] at hx
  simp only [TAILQ_NEXT, hread, ok_bind, hx]

/-- Back from a place in the queue, once more, and forward again. -/
theorem back_eq (hring : Ring m h (l ++ r)) : ∃ e c f d g, m.read (after h r) = .ok e ∧ e.prev = some c ∧
    m.read c = .ok f ∧ f.prev = some d ∧ m.read d = .ok g ∧ g.next = l.getLast? := by
  have hhere : ∀ {l r : List Nat}, Ring m h (l ++ r) →
      (∃ e, m.read (after h r) = .ok e ∧ e.prev = some (before h l)) ∧
        ∃ g, m.read (before h l) = .ok g ∧ g.next = r.head? := by
    intro l r hring
    obtain ⟨_, ⟨hnext, hprev⟩, _⟩ := ring_append.mp hring
    rw [after_ptr] at hnext
    exact ⟨Cells.read_of_prev hprev, Cells.read_of_next hnext⟩
  obtain ⟨⟨e, hread, he⟩, _⟩ := hhere hring
  obtain rfl | ⟨l', b, rfl⟩ := List.eq_nil_or_concat l
  · -- the second step wraps around to the last element, behind which there is none
    obtain ⟨⟨f, hread', hf⟩, g, hread'', hg⟩ := hhere (l := r) (r := []) (by rwa [List.append_nil])
    exact ⟨e, _, f, _, g, hread, he, hread', hf, hread'', hg⟩
  · rw [List.concat_eq_append] at he ⊢
    obtain ⟨⟨f, hread', hf⟩, g, hread'', hg⟩ := hhere (l := l') (r := b :: r) (by simpa using hring)
    have hb : before h (l' ++ [b]) = after h (b :: r) := by simp [before, after]
    rw [hb] at he
    exact ⟨e, _, f, _, g, hread, he, hread', hf, hread'', by simpa using hg⟩

theorem last_eq (hring : Ring m h r) : TAILQ_LAST m h = .ok r.getLast? := by
  obtain ⟨e, c, f, d, g, hread, he, hread', hf, hread'', hg⟩ :=
    back_eq (l := r) (r := []) (by rwa [List.append_nil])
  have hread : m.read (.head h) = .ok e := hread
  simp only [TAILQ_LAST, hread, ok_bind, he, Cells.deref, Option.elim_some, hread', hf, hread'', hg]

theorem prev_eq (hring : Ring m h (l ++ a :: r)) : TAILQ_PREV m a = .ok l.getLast? := by
  obtain ⟨e, c, f, d, g, hread, he, hread', hf, hread'', hg⟩ := back_eq hring
  have hread : m.read (.entry a) = .ok e := hread
  simp only [TAILQ_PREV, hread, ok_bind, he, Cells.deref, Option.elim_some, hread', hf, hread'', hg]

theorem foreach_loop_eq (hring : Ring m h (l ++ r)) {fuel : Nat} (hfuel : r.length ≤ fuel) :
    foreach_loop m fuel r.head? = .ok r := by
  induction r generalizing l fuel with
  | nil => cases fuel <;> rfl
  | cons a r ih =>
    rw [List.length_cons] at hfuel
    obtain ⟨fuel, rfl⟩ := Nat.exists_eq_add_one_of_ne_zero (by omega : fuel ≠ 0)
    have hrest := ih (l := l ++ [a]) (by simpa using hring) (by omega : r.length ≤ fuel)
    rw [List.head?_cons, foreach_loop, next_eq hring, ok_bind, hrest, ok_bind]

theorem foreach_eq (hring : Ring m h r) {fuel : Nat} (hfuel : r.length ≤ fuel) :
    TAILQ_FOREACH m fuel h = .ok r := by
  rw [TAILQ_FOREACH, first_eq hring, ok_bind]
  exact foreach_loop_eq (l := []) hring hfuel

theorem foreach_reverse_loop_eq (hring : Ring m h (l ++ r)) {fuel : Nat} (hfuel : l.length ≤ fuel) :
    foreach_reverse_loop m fuel l.getLast? = .ok l.reverse := by
  induction l using List.reverseRecOn generalizing r fuel with
  | nil => cases fuel <;> rfl
  | append_singleton l a ih =>
    rw [List.length_append, List.length_singleton] at hfuel
    obtain ⟨fuel, rfl⟩ := Nat.exists_eq_add_one_of_ne_zero (by omega : fuel ≠ 0)
    have hring : Ring m h (l ++ a :: r) := by simpa using hring
    have hrest := ih hring (by omega : l.length ≤ fuel)
    rw [List.getLast?_concat, foreach_reverse_loop, prev_eq hring, ok_bind, hrest, ok_bind,
      List.reverse_append, List.reverse_singleton, List.singleton_append]

theorem foreach_reverse_eq (hring : Ring m h r) {fuel : Nat} (hfuel : r.length ≤ fuel) :
    TAILQ_FOREACH_REVERSE m fuel h = .ok r.reverse := by
  rw [TAILQ_FOREACH_REVERSE, last_eq hring, ok_bind]
  exact foreach_reverse_loop_eq (r := []) (by rwa [List.append_nil]) hfuel

/-! ## What the macros change

Whatever the order of its writes, each insertion puts its element between two
neighbours. -/

/-- The cells that there are. -/
def SameCells (m m' : Cells) : Prop := ∀ c, (m' c).isSome = (m c).isSome

theorem after_ne (ha : a ∉ r) : after h r ≠ .entry a := fun heq => ha (mem_of_after heq)

/-- Both neighbours of a place in a queue. -/
theorem place_fields (hring : Ring m h (l ++ r)) :
    m.nextOf (before h l) = some r.head? ∧ m.prevOf (after h r) = some (some (before h l)) := by
  obtain ⟨_, ⟨hnext, hprev⟩, _⟩ := ring_append.mp hring
  rw [after_ptr] at hnext
  exact ⟨hnext, hprev⟩

/-- The writes of the two insertions that start from the element before. -/
theorem put_between {x y : Cell} (hlive : (m (.entry a)).isSome) (hx : (m x).isSome) (hy : (m y).isSome)
    (hne : y ≠ .entry a) :
    ∃ m₁ m₂ m₃ m', m.setNext (.entry a) y.ptr = .ok m₁ ∧ m₁.setPrev y (some (.entry a)) = .ok m₂ ∧
      m₂.setNext x (some a) = .ok m₃ ∧ m₃.setPrev (.entry a) (some x) = .ok m' ∧
      Inserts m m' x y a ∧ SameCells m m' := by
  obtain ⟨m₁, hwrite₁, hnext₁, hprev₁, hsame₁⟩ := Cells.setNext_spec hlive y.ptr
  obtain ⟨m₂, hwrite₂, hnext₂, hprev₂, hsame₂⟩ := Cells.setPrev_spec (m := m₁) (c := y)
    (by rw [hsame₁]; exact hy) (some (.entry a))
  obtain ⟨m₃, hwrite₃, hnext₃, hprev₃, hsame₃⟩ := Cells.setNext_spec (m := m₂) (c := x)
    (by rw [hsame₂, hsame₁]; exact hx) (some a)
  obtain ⟨m₄, hwrite₄, hnext₄, hprev₄, hsame₄⟩ := Cells.setPrev_spec (m := m₃) (c := .entry a)
    (by rw [hsame₃, hsame₂, hsame₁]; exact hlive) (some x)
  refine ⟨m₁, m₂, m₃, m₄, hwrite₁, hwrite₂, hwrite₃, hwrite₄, ⟨?_, ?_⟩,
    fun c => by rw [hsame₄, hsame₃, hsame₂, hsame₁]⟩
  · rw [hnext₄, hnext₃, hnext₂, hnext₁]
  · rw [hprev₄, hprev₃, hprev₂, hprev₁, Function.update_comm hne]

theorem insert_head_spec (hring : Ring m h r) (hlive : (m (.entry a)).isSome) (ha : a ∉ r) :
    ∃ m', TAILQ_INSERT_HEAD m h a = .ok m' ∧ Inserts m m' (before h []) (after h r) a ∧ SameCells m m' := by
  obtain ⟨hnext, hprev⟩ := place_fields (l := []) hring
  obtain ⟨m₁, m₂, m₃, m', hwrite₁, hwrite₂, hwrite₃, hwrite₄, hinserts, hsame⟩ :=
    put_between hlive (Cells.live_of_next hnext) (Cells.live_of_prev hprev) (after_ne ha)
  rw [after_ptr] at hwrite₁
  refine ⟨m', ?_, hinserts, hsame⟩
  rw [TAILQ_INSERT_HEAD, first_eq hring, ok_bind, hwrite₁, ok_bind, set_back_eq, hwrite₂, ok_bind]
  rw [show Cell.head h = before h [] from rfl, hwrite₃, ok_bind, hwrite₄]

theorem insert_after_spec (hring : Ring m h (l ++ b :: r)) (hlive : (m (.entry a)).isSome)
    (ha : a ∉ l ++ b :: r) :
    ∃ m', TAILQ_INSERT_AFTER m h b a = .ok m' ∧ Inserts m m' (.entry b) (after h r) a ∧ SameCells m m' := by
  have hb : before h (l ++ [b]) = .entry b := by simp [before]
  obtain ⟨hnext, hprev⟩ := place_fields (l := l ++ [b]) (r := r) (by simpa using hring)
  rw [hb] at hnext
  obtain ⟨m₁, m₂, m₃, m', hwrite₁, hwrite₂, hwrite₃, hwrite₄, hinserts, hsame⟩ :=
    put_between hlive (Cells.live_of_next hnext) (Cells.live_of_prev hprev)
      (after_ne fun hmem => ha (by simp [hmem]))
  rw [after_ptr] at hwrite₁
  refine ⟨m', ?_, hinserts, hsame⟩
  rw [TAILQ_INSERT_AFTER, next_eq hring, ok_bind, hwrite₁, ok_bind, set_back_eq, hwrite₂, ok_bind, hwrite₃, ok_bind,
    hwrite₄]

theorem insert_tail_spec (hring : Ring m h l) (hlive : (m (.entry a)).isSome) :
    ∃ m', TAILQ_INSERT_TAIL m h a = .ok m' ∧ Inserts m m' (before h l) (after h []) a ∧ SameCells m m' := by
  obtain ⟨hnext, hprev⟩ := place_fields (l := l) (r := []) (by rwa [List.append_nil])
  have hprev : m.prevOf (.head h) = some (some (before h l)) := hprev
  obtain ⟨m₁, hwrite₁, hnext₁, hprev₁, hsame₁⟩ := Cells.setNext_spec hlive none
  obtain ⟨x₁, hread₁, hx₁⟩ := Cells.read_of_prev (m := m₁) (by rw [hprev₁, hprev])
  obtain ⟨m₂, hwrite₂, hnext₂, hprev₂, hsame₂⟩ := Cells.setPrev_spec (m := m₁) (c := .entry a)
    (by rw [hsame₁]; exact hlive) (some (before h l))
  obtain ⟨x₂, hread₂, hx₂⟩ := Cells.read_of_prev (m := m₂) (c := .head h)
    (by rw [hprev₂, Function.update_of_ne (by nofun), hprev₁, hprev])
  obtain ⟨m₃, hwrite₃, hnext₃, hprev₃, hsame₃⟩ := Cells.setNext_spec (m := m₂) (c := before h l)
    (by rw [hsame₂, hsame₁]; exact Cells.live_of_next hnext) (some a)
  obtain ⟨m₄, hwrite₄, hnext₄, hprev₄, hsame₄⟩ := Cells.setPrev_spec (m := m₃) (c := .head h)
    (by rw [hsame₃, hsame₂, hsame₁]; exact Cells.live_of_prev hprev) (some (.entry a))
  refine ⟨m₄, ?_, ⟨?_, ?_⟩, fun c => by rw [hsame₄, hsame₃, hsame₂, hsame₁]⟩
  · simp only [TAILQ_INSERT_TAIL, hwrite₁, ok_bind, hread₁, hx₁, hwrite₂, hread₂, hx₂, store, Option.elim_some,
      hwrite₃, hwrite₄]
  · rw [hnext₄, hnext₃, hnext₂, hnext₁]
    rfl
  · rw [hprev₄, hprev₃, hprev₂, hprev₁]
    rfl

theorem insert_before_spec (hring : Ring m h (l ++ b :: r)) (hlive : (m (.entry a)).isSome)
    (ha : a ∉ l ++ b :: r) :
    ∃ m', TAILQ_INSERT_BEFORE m b a = .ok m' ∧ Inserts m m' (before h l) (.entry b) a ∧ SameCells m m' := by
  obtain ⟨hnext, hprev⟩ := place_fields hring
  have hprev : m.prevOf (.entry b) = some (some (before h l)) := hprev
  have hba : Cell.entry b ≠ .entry a := by
    rintro ⟨⟩
    exact ha (by simp)
  obtain ⟨x, hread, hx⟩ := Cells.read_of_prev hprev
  obtain ⟨m₁, hwrite₁, hnext₁, hprev₁, hsame₁⟩ := Cells.setPrev_spec hlive (some (before h l))
  obtain ⟨m₂, hwrite₂, hnext₂, hprev₂, hsame₂⟩ := Cells.setNext_spec (m := m₁) (c := .entry a)
    (by rw [hsame₁]; exact hlive) (some b)
  obtain ⟨x₂, hread₂, hx₂⟩ := Cells.read_of_prev (m := m₂) (c := .entry b)
    (by rw [hprev₂, hprev₁, Function.update_of_ne hba, hprev])
  obtain ⟨m₃, hwrite₃, hnext₃, hprev₃, hsame₃⟩ := Cells.setNext_spec (m := m₂) (c := before h l)
    (by rw [hsame₂, hsame₁]; exact Cells.live_of_next hnext) (some a)
  obtain ⟨m₄, hwrite₄, hnext₄, hprev₄, hsame₄⟩ := Cells.setPrev_spec (m := m₃) (c := .entry b)
    (by rw [hsame₃, hsame₂, hsame₁]; exact Cells.live_of_prev hprev) (some (.entry a))
  refine ⟨m₄, ?_, ⟨?_, ?_⟩, fun c => by rw [hsame₄, hsame₃, hsame₂, hsame₁]⟩
  · simp only [TAILQ_INSERT_BEFORE, hread, ok_bind, hx, hwrite₁, hwrite₂, hread₂, hx₂, store, Option.elim_some,
      hwrite₃, hwrite₄]
  · rw [hnext₄, hnext₃, hnext₂, hnext₁]
    rfl
  · rw [hprev₄, hprev₃, hprev₂, hprev₁]

theorem remove_spec (hring : Ring m h (l ++ a :: r)) (ha : a ∉ l ++ r) :
    ∃ m', TAILQ_REMOVE m h a = .ok m' ∧ Removes m m' (before h l) (after h r) ∧ SameCells m m' := by
  obtain ⟨hnext, hprev⟩ := place_fields hring
  have hprev : m.prevOf (.entry a) = some (some (before h l)) := hprev
  obtain ⟨hnext', hprev'⟩ := place_fields (l := l ++ [a]) (r := r) (by simpa using hring)
  have hlast : before h (l ++ [a]) = .entry a := by simp [before]
  rw [hlast] at hnext'
  obtain ⟨x, hread, hx⟩ := Cells.read_of_prev hprev
  have hx' : x.next = r.head? := by
    obtain ⟨y, hread', hy⟩ := Cells.read_of_next hnext'
    rw [hread] at hread'
    obtain rfl := Except.ok.inj hread'
    exact hy
  have hr : a ∉ r := fun hmem => ha (List.mem_append_right l hmem)
  obtain ⟨m₁, hwrite₁, hnext₁, hprev₁, hsame₁⟩ := Cells.setPrev_spec (m := m) (c := after h r)
    (Cells.live_of_prev hprev') (some (before h l))
  obtain ⟨x₁, hread₁, hx₁⟩ := Cells.read_of_prev (m := m₁) (c := .entry a)
    (by rw [hprev₁, Function.update_of_ne (Ne.symm (after_ne hr)), hprev])
  have hx₁' : x₁.next = r.head? := by
    obtain ⟨y, hread', hy⟩ := Cells.read_of_next (m := m₁) (by rw [hnext₁, hnext'])
    rw [hread₁] at hread'
    obtain rfl := Except.ok.inj hread'
    exact hy
  obtain ⟨m₂, hwrite₂, hnext₂, hprev₂, hsame₂⟩ := Cells.setNext_spec (m := m₁) (c := before h l)
    (by rw [hsame₁]; exact Cells.live_of_next hnext) r.head?
  refine ⟨m₂, ?_, ⟨?_, ?_⟩, fun c => by rw [hsame₂, hsame₁]⟩
  · simp only [TAILQ_REMOVE, hread, ok_bind, hx, hx', set_back_eq, hwrite₁, hread₁, hx₁, hx₁', store,
      Option.elim_some, hwrite₂]
  · rw [hnext₂, hnext₁, after_ptr]
  · rw [hprev₂, hprev₁]

theorem ring_live {as : List Nat} (hring : Ring m h as) (ha : a ∈ as) : (m (.entry a)).isSome := by
  obtain ⟨l, r, rfl⟩ := List.append_of_mem ha
  exact Cells.live_of_prev (place_fields hring).2

theorem init_spec (hlive : (m (.head h)).isSome) : ∃ m', TAILQ_INIT m h = .ok m' ∧
    m'.nextOf = Function.update m.nextOf (.head h) (some none) ∧
      m'.prevOf = Function.update m.prevOf (.head h) (some (some (.head h))) ∧ SameCells m m' := by
  obtain ⟨m₁, hwrite₁, hnext₁, hprev₁, hsame₁⟩ := Cells.setNext_spec hlive none
  obtain ⟨m₂, hwrite₂, hnext₂, hprev₂, hsame₂⟩ := Cells.setPrev_spec (m := m₁) (c := .head h)
    (by rw [hsame₁]; exact hlive) (some (.head h))
  refine ⟨m₂, ?_, by rw [hnext₂, hnext₁], by rw [hprev₂, hprev₁], fun c => by rw [hsame₂, hsame₁]⟩
  simp only [TAILQ_INIT, hwrite₁, ok_bind, hwrite₂]

/-- What `TAILQ_CONCAT` writes when there is something to move. -/
theorem concat_spec {h₁ h₂ : Nat} (hring₁ : Ring m h₁ l) (hring₂ : Ring m h₂ (a :: r)) :
    ∃ m', TAILQ_CONCAT m h₁ h₂ = .ok m' ∧ SameCells m m' ∧
      m'.nextOf = Function.update (Function.update m.nextOf (before h₁ l) (some (some a))) (.head h₂) (some none) ∧
      m'.prevOf = Function.update (Function.update (Function.update m.prevOf (.entry a) (some (some (before h₁ l))))
        (.head h₁) (some (some (before h₂ (a :: r))))) (.head h₂) (some (some (.head h₂))) := by
  obtain ⟨hnext₁, hprev₁⟩ := place_fields (l := l) (r := []) (by rwa [List.append_nil])
  obtain ⟨hnext₂, hprev₂⟩ := place_fields (l := a :: r) (r := []) (by rwa [List.append_nil])
  have hprev₁ : m.prevOf (.head h₁) = some (some (before h₁ l)) := hprev₁
  have hprev₂ : m.prevOf (.head h₂) = some (some (before h₂ (a :: r))) := hprev₂
  have hlive : (m (.entry a)).isSome := ring_live hring₂ List.mem_cons_self
  obtain ⟨x, hread, hx⟩ := Cells.read_of_prev hprev₁
  obtain ⟨n₁, hwrite₁, hn₁, hp₁, hsame₁⟩ := Cells.setNext_spec (Cells.live_of_next hnext₁) (some a)
  obtain ⟨n₂, hwrite₂, hn₂, hp₂, hsame₂⟩ := Cells.setPrev_spec (m := n₁) (c := .entry a)
    (by rw [hsame₁]; exact hlive) (some (before h₁ l))
  obtain ⟨y, hread₂, hy⟩ := Cells.read_of_prev (m := n₂) (c := .head h₂)
    (by rw [hp₂, Function.update_of_ne (by nofun), hp₁, hprev₂])
  obtain ⟨n₃, hwrite₃, hn₃, hp₃, hsame₃⟩ := Cells.setPrev_spec (m := n₂) (c := .head h₁)
    (by rw [hsame₂, hsame₁]; exact Cells.live_of_prev hprev₁) (some (before h₂ (a :: r)))
  obtain ⟨n₄, hwrite₄, hn₄, hp₄, hsame₄⟩ := init_spec (m := n₃) (h := h₂)
    (by rw [hsame₃, hsame₂, hsame₁]; exact Cells.live_of_prev hprev₂)
  refine ⟨n₄, ?_, fun c => by rw [hsame₄, hsame₃, hsame₂, hsame₁], by rw [hn₄, hn₃, hn₂, hn₁],
    by rw [hp₄, hp₃, hp₂, hp₁]⟩
  rw [TAILQ_CONCAT, first_eq hring₂, ok_bind]
  simp only [List.head?_cons, hread, ok_bind, hx, store, Option.elim_some, hwrite₁, hwrite₂, hread₂, hy, hwrite₃,
    hwrite₄]

/-! ## The queue of the in-memory file

There it is a list of blocks with their addresses. -/

section Tailq

variable {α : Type} {q : Tailq α}

theorem first_tailq (hring : Ring m h q.addresses) : TAILQ_FIRST m h = .ok q.first := by
  rw [first_eq hring, Tailq.addresses, List.head?_map]
  rfl

theorem next_tailq (hring : Ring m h q.addresses) (hnodup : q.addresses.Nodup) (ha : a ∈ q.addresses) :
    TAILQ_NEXT m a = q.next (some a) := by
  obtain ⟨pre, x, post, rfl⟩ := Tailq.split_of_mem ha
  obtain ⟨hpre, _⟩ := Tailq.notMem_of_nodup hnodup
  have hring : Ring m h (Tailq.addresses pre ++ a :: Tailq.addresses post) := by
    rwa [Tailq.addresses_append] at hring
  rw [next_eq hring, Tailq.next_split hpre, Tailq.addresses, List.head?_map]
  rfl

theorem insert_tail_tailq (hring : Ring m h q.addresses) (hnodup : q.addresses.Nodup)
    (hlive : (m (.entry a)).isSome) (ha : a ∉ q.addresses) (x : α) :
    ∃ m', TAILQ_INSERT_TAIL m h a = .ok m' ∧ Ring m' h (Tailq.addresses (q ++ [(a, x)])) := by
  obtain ⟨m', hinsert, hinserts, _⟩ := insert_tail_spec hring hlive
  refine ⟨m', hinsert, ?_⟩
  rw [Tailq.addresses_append]
  exact hinserts.ring (r := []) (by rwa [List.append_nil]) (by rwa [List.append_nil]) (by rwa [List.append_nil])

theorem insert_head_tailq (hring : Ring m h q.addresses) (hnodup : q.addresses.Nodup)
    (hlive : (m (.entry a)).isSome) (ha : a ∉ q.addresses) (x : α) :
    ∃ m', TAILQ_INSERT_HEAD m h a = .ok m' ∧ Ring m' h (Tailq.addresses ((a, x) :: q)) := by
  obtain ⟨m', hinsert, hinserts, _⟩ := insert_head_spec hring hlive ha
  exact ⟨m', hinsert, hinserts.ring (l := []) hring hnodup ha⟩

end Tailq

end code_tools.queue
