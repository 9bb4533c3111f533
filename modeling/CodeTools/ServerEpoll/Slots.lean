import CodeTools.Lib.Slots
import CodeTools.ServerEpoll.Server

/-!
# Slots, the running counter and the children

A slot keeps the number of its connection, which was closed when the child was
created. That number is the lowest free one whenever the parent is not busy with
an event, so closing it again with the slot closes nothing.
-/

namespace code_tools.server_epoll.server

open cmem descriptor machine slots syscall

/-! ## Closing -/

/-- The descriptors in `gone` were closed and nothing else was done. -/
structure Closed (gone : Int → Prop) (s s' : Server) : Prop where
  max_connect : s'.max_connect = s.max_connect
  clients_t : s'.clients_t = s.clients_t
  running : s'.epoll_num_running = s.epoll_num_running
  listen_fd : s'.listen_fd = s.listen_fd
  events : s'.epoll_evts = s.epoll_evts
  children : s'.children = s.children
  shut : ∀ k : Nat, gone k → s'.files.get? k = none
  kept : ∀ k : Nat, ¬gone k → s'.files.get? k = s.files.get? k
  watched : ∀ k : Nat, k ∈ s'.watched ↔ k ∈ s.watched ∧ ¬gone k

theorem close_fd_closed (s : Server) (fd : Int) : Closed (· = fd) s (close_fd s fd) := by
  unfold close_fd
  by_cases hneg : fd < 0
  · rw [if_pos hneg]
    refine ⟨rfl, rfl, rfl, rfl, rfl, rfl, fun k hk => by omega, fun _ _ => rfl, fun k => ?_⟩
    exact ⟨fun hmem => ⟨hmem, by omega⟩, And.left⟩
  · rw [if_neg hneg]
    obtain ⟨n, rfl⟩ := Int.eq_ofNat_of_zero_le (by omega : 0 ≤ fd)
    refine ⟨rfl, rfl, rfl, rfl, rfl, rfl, fun k hk => ?_, fun k hk => ?_, fun k => ?_⟩
    · show (s.files.close n).get? k = none
      rw [Table.get?_close, if_pos (by omega)]
    · show (s.files.close n).get? k = s.files.get? k
      rw [Table.get?_close, if_neg (by omega)]
    · show k ∈ s.watched.filter (· ≠ n) ↔ _
      rw [List.mem_filter, decide_eq_true_iff, ne_eq, Int.ofNat_inj]

theorem Closed.trans {gone gone' : Int → Prop} {s s' s'' : Server} (h : Closed gone s s')
    (h' : Closed gone' s' s'') : Closed (fun k => gone k ∨ gone' k) s s'' := by
  refine ⟨h'.max_connect.trans h.max_connect, h'.clients_t.trans h.clients_t, h'.running.trans h.running,
    h'.listen_fd.trans h.listen_fd, h'.events.trans h.events, h'.children.trans h.children, ?_, ?_, ?_⟩
  · intro k hk
    by_cases hgone : gone' k
    · exact h'.shut k hgone
    · rw [h'.kept k hgone]
      exact h.shut k (hk.resolve_right hgone)
  · intro k hk
    rw [h'.kept k fun hgone => hk (Or.inr hgone), h.kept k fun hgone => hk (Or.inl hgone)]
  · intro k
    rw [h'.watched, h.watched, not_or, and_assoc]

/-- Skipping the -1 of a descriptor that is not there closes the same numbers. -/
theorem close_unless_closed (s : Server) (fd : Int) :
    Closed (· = fd) s (if fd ≠ -1 then close_fd s fd else s) := by
  by_cases hfd : fd = -1
  · rw [if_neg (not_not_intro hfd)]
    refine ⟨rfl, rfl, rfl, rfl, rfl, rfl, fun k hk => by omega, fun _ _ => rfl, fun k => ?_⟩
    exact ⟨fun hmem => ⟨hmem, by omega⟩, And.left⟩
  · rw [if_pos hfd]
    exact close_fd_closed s fd

/-- Cleaning a slot closes its three descriptors and makes it idle. -/
theorem clean_client_spec {s : Server} {i : Nat} {client : Client} (hclient : s.clients_t[i]? = some client) :
    ∃ s₁, Closed (fun k => (k = client.fd ∨ k = client.pfd_r) ∨ k = client.pfd_w) s s₁ ∧
      clean_client_with_idx s i = { s₁ with clients_t := s.clients_t.set i idle_client } := by
  obtain ⟨s₁, hs₁⟩ : ∃ s₁, s₁ = if client.fd ≠ -1 then close_fd s client.fd else s := ⟨_, rfl⟩
  obtain ⟨s₂, hs₂⟩ : ∃ s₂, s₂ = if client.pfd_r ≠ -1 then close_fd s₁ client.pfd_r else s₁ := ⟨_, rfl⟩
  obtain ⟨s₃, hs₃⟩ : ∃ s₃, s₃ = if client.pfd_w ≠ -1 then close_fd s₂ client.pfd_w else s₂ := ⟨_, rfl⟩
  have hfd : Closed (· = client.fd) s s₁ := hs₁ ▸ close_unless_closed s client.fd
  have hpfd_r : Closed (· = client.pfd_r) s₁ s₂ := hs₂ ▸ close_unless_closed s₁ client.pfd_r
  have hpfd_w : Closed (· = client.pfd_w) s₂ s₃ := hs₃ ▸ close_unless_closed s₂ client.pfd_w
  have hall := (hfd.trans hpfd_r).trans hpfd_w
  refine ⟨s₃, hall, ?_⟩
  unfold clean_client_with_idx
  rw [hclient]
  dsimp only
  rw [← hs₁, ← hs₂, ← hs₃, hall.clients_t]

/-! ## Searching -/

theorem find_client_eq_none_iff {s : Server} {test : Client → Bool} :
    find_client s test = none ↔
      ∀ (i : Nat) client, i < s.max_connect → s.clients_t[i]? = some client → test client = false := by
  unfold find_client
  rw [List.findIdx?_eq_none_iff]
  constructor
  · intro hnone i client hi hclient
    exact hnone client (List.mem_of_getElem? (by rw [List.getElem?_take_of_lt hi]; exact hclient))
  · intro hnone client hmem
    obtain ⟨i, heq⟩ := List.mem_iff_getElem?.mp hmem
    by_cases hi : i < s.max_connect
    · rw [List.getElem?_take_of_lt hi] at heq
      exact hnone i client hi heq
    · rw [List.getElem?_take, if_neg hi] at heq
      cases heq

theorem find_client_eq_some {s : Server} {test : Client → Bool} {i : Nat}
    (hfind : find_client s test = some i) :
    i < s.max_connect ∧ ∃ client, s.clients_t[i]? = some client ∧ test client = true := by
  unfold find_client at hfind
  obtain ⟨hi, htest, _⟩ := List.findIdx?_eq_some_iff_getElem.mp hfind
  rw [List.length_take] at hi
  rw [List.getElem_take] at htest
  exact ⟨by omega, _, List.getElem?_eq_getElem (by omega), htest⟩

/-! ## What holds while the parent is not busy -/

/-- A slot with a child: both its descriptors are open pipe ends above `c`, and
    its reading end is registered and belongs to a pipe of a child. -/
structure Live (c : Nat) (s : Server) (client : Client) (r w : Nat) : Prop where
  pfd_r : client.pfd_r = r
  pfd_w : client.pfd_w = w
  above_r : c < r
  above_w : c < w
  reads : ∃ pipe, s.files.get? r = some (.pipe_r pipe) ∧ (client.pid, pipe) ∈ s.children
  writes : ∃ pipe, s.files.get? w = some (.pipe_w pipe)
  watched : r ∈ s.watched

/-- A slot stays live while its descriptors, its child and its registration do. -/
theorem Live.stays {c : Nat} {s s' : Server} {client : Client} {r w : Nat} (hlive : Live c s client r w)
    (hr : s'.files.get? r = s.files.get? r) (hw : s'.files.get? w = s.files.get? w)
    (hchildren : ∀ child ∈ s.children, child ∈ s'.children) (hwatched : r ∈ s'.watched) :
    Live c s' client r w := by
  obtain ⟨pipe, hreads, hchild⟩ := hlive.reads
  obtain ⟨pipe', hwrites⟩ := hlive.writes
  exact ⟨hlive.pfd_r, hlive.pfd_w, hlive.above_r, hlive.above_w, ⟨pipe, hr.trans hreads, hchildren _ hchild⟩,
    ⟨pipe', hw.trans hwrites⟩, hwatched⟩

/-- A slot of the changed table is the changed slot or an old one. -/
theorem getElem?_set_cases {α : Type} {l : List α} {i j : Nat} {x y : α} (hy : (l.set i x)[j]? = some y) :
    (j = i ∧ y = x) ∨ (j ≠ i ∧ l[j]? = some y) := by
  by_cases hj : j = i
  · rw [hj, List.getElem?_set_self'] at hy
    obtain ⟨_, _, rfl⟩ := Option.map_eq_some_iff.mp hy
    exact Or.inl ⟨hj, rfl⟩
  · rw [List.getElem?_set_ne (Ne.symm hj)] at hy
    exact Or.inr ⟨hj, hy⟩

/-- The books of the parent. `c` is the number that the next connection gets
    and that the slots hold for their closed connections. -/
structure Kept (c : Nat) (s : Server) : Prop where
  size : s.clients_t.length = s.max_connect + 1
  spare : ∀ client, s.clients_t[s.max_connect]? = some client → client.used = false
  running : s.epoll_num_running = s.clients_t.countP (·.used)
  free : s.files.get? c = none
  listening : s.listen_fd ∈ s.watched → s.files.get? s.listen_fd = some .listener
  below : s.files.get? s.listen_fd = some .listener → ∀ k < c, (s.files.get? k).isSome
  idle : ∀ (i : Nat) client, s.clients_t[i]? = some client → client.used = false → client = idle_client
  live : ∀ (i : Nat) client, s.clients_t[i]? = some client → client.used = true →
    client.fd = c ∧ ∃ r w, Live c s client r w
  distinct : ∀ (i j : Nat) ci cj, s.clients_t[i]? = some ci → s.clients_t[j]? = some cj → ci.used = true →
    cj.used = true → ci.pfd_r = cj.pfd_r ∨ ci.pfd_w = cj.pfd_w → i = j
  watched : ∀ k ∈ s.watched, k = s.listen_fd ∨
    ∃ i : Nat, ∃ client, s.clients_t[i]? = some client ∧ client.used = true ∧ client.pfd_r = k
  pending : ∀ evt ∈ s.epoll_evts, evt.fd ∈ s.watched
  nodup : (s.epoll_evts.map Event.fd).Nodup

/-- A registered descriptor is open, and it is not one that is written to. -/
theorem Kept.watched_open {c : Nat} {s : Server} (hkept : Kept c s) {k : Nat} (hk : k ∈ s.watched) :
    s.files.get? k = some .listener ∨ ∃ pipe, s.files.get? k = some (.pipe_r pipe) := by
  rcases hkept.watched k hk with rfl | ⟨i, client, hclient, hused, hpfd⟩
  · exact Or.inl (hkept.listening hk)
  · obtain ⟨_, r, w, hlive⟩ := hkept.live i client hclient hused
    obtain ⟨pipe, hfile, _⟩ := hlive.reads
    obtain rfl : k = r := Int.ofNat_inj.mp (hpfd.symm.trans hlive.pfd_r)
    exact Or.inr ⟨pipe, hfile⟩

/-- The slot behind a registered descriptor is found. -/
theorem Kept.find {c : Nat} {s : Server} (hkept : Kept c s) {fd : Nat} (hwatched : fd ∈ s.watched)
    (hfd : fd ≠ s.listen_fd) :
    ∃ i client, get_idx_with_sockfd s fd = some i ∧ i < s.max_connect ∧ s.clients_t[i]? = some client ∧
      client.used = true ∧ client.pfd_r = fd := by
  obtain ⟨j, slot, hslot, hused, hpfd⟩ := (hkept.watched fd hwatched).resolve_left hfd
  have hj : j < s.max_connect := by
    have hlt := (List.getElem?_eq_some_iff.mp hslot).1
    have hne : j ≠ s.max_connect := by
      rintro rfl
      rw [hkept.spare slot hslot] at hused
      cases hused
    have hsize := hkept.size
    omega
  cases hfind : get_idx_with_sockfd s fd with
  | none =>
    have hfalse := find_client_eq_none_iff.mp hfind j slot hj hslot
    simp [hused, hpfd] at hfalse
  | some i =>
    obtain ⟨hi, client, hclient, htest⟩ := find_client_eq_some hfind
    rw [Bool.and_eq_true, decide_eq_true_iff] at htest
    exact ⟨i, client, rfl, hi, hclient, htest.2, htest.1⟩

/-- What is closed with a slot is no descriptor of another slot and nothing that
    is registered, apart from its own reading end. -/
theorem Kept.not_gone {c : Nat} {s : Server} (hkept : Kept c s) {i : Nat} {client : Client} {r w : Nat}
    (hclient : s.clients_t[i]? = some client) (hused : client.used = true) (hlive : Live c s client r w) :
    (∀ k ∈ s.watched, k ≠ r → k ≠ c ∧ k ≠ w) ∧
      ∀ (j : Nat) other r' w', j ≠ i → s.clients_t[j]? = some other → other.used = true →
        Live c s other r' w' → r' ≠ r ∧ r' ≠ w ∧ w' ≠ r ∧ w' ≠ w := by
  obtain ⟨pipe, hr, _⟩ := hlive.reads
  obtain ⟨pipe', hw⟩ := hlive.writes
  constructor
  · intro k hk _
    have hopen := hkept.watched_open hk
    constructor
    · rintro rfl
      simp [hkept.free] at hopen
    · rintro rfl
      simp [hw] at hopen
  · intro j other r' w' hne hother hused' hlive'
    obtain ⟨_, hr', _⟩ := hlive'.reads
    obtain ⟨_, hw'⟩ := hlive'.writes
    refine ⟨?_, ?_, ?_, ?_⟩
    · rintro rfl
      exact hne (hkept.distinct j i other client hother hclient hused' hused
        (Or.inl (hlive'.pfd_r.trans hlive.pfd_r.symm)))
    · rintro rfl
      simp [hw] at hr'
    · rintro rfl
      simp [hr] at hw'
    · rintro rfl
      exact hne (hkept.distinct j i other client hother hclient hused' hused
        (Or.inr (hlive'.pfd_w.trans hlive.pfd_w.symm)))

/-- Cleaning the slot of a child and counting it off keeps the books. -/
theorem Kept.release {c : Nat} {s s₁ : Server} (hkept : Kept c s) {i : Nat} {client : Client}
    (hi : i < s.max_connect) (hclient : s.clients_t[i]? = some client) (hused : client.used = true)
    (hclosed : Closed (fun k => (k = client.fd ∨ k = client.pfd_r) ∨ k = client.pfd_w) s s₁)
    (hevents : ∀ evt ∈ s.epoll_evts, (evt.fd : Int) ≠ client.pfd_r) :
    Kept c { s₁ with
      clients_t := s.clients_t.set i idle_client, epoll_num_running := s.epoll_num_running - 1 } := by
  obtain ⟨hfd, r, w, hlive⟩ := hkept.live i client hclient hused
  obtain ⟨hwatched, hothers⟩ := hkept.not_gone hclient hused hlive
  rw [hfd, hlive.pfd_r, hlive.pfd_w] at hclosed
  rw [hlive.pfd_r] at hevents
  have hgone : ∀ k : Nat, (((k : Int) = c ∨ (k : Int) = r) ∨ (k : Int) = w) ↔ (k = c ∨ k = r) ∨ k = w := by
    intro k
    omega
  have hshut : ∀ k, (k = c ∨ k = r) ∨ k = w → s₁.files.get? k = none :=
    fun k hk => hclosed.shut k ((hgone k).mpr hk)
  have hsame : ∀ k, ¬((k = c ∨ k = r) ∨ k = w) → s₁.files.get? k = s.files.get? k :=
    fun k hk => hclosed.kept k fun h => hk ((hgone k).mp h)
  have hmem : ∀ k, k ∈ s₁.watched ↔ k ∈ s.watched ∧ ¬((k = c ∨ k = r) ∨ k = w) :=
    fun k => (hclosed.watched k).trans (and_congr_right fun _ => not_congr (hgone k))
  -- a slot that is still used is another one
  have hstill : ∀ (j : Nat) other, (s.clients_t.set i idle_client)[j]? = some other → other.used = true →
      j ≠ i ∧ s.clients_t[j]? = some other := by
    intro j other hother hused'
    rcases getElem?_set_cases hother with ⟨_, rfl⟩ | hold
    · cases hused'
    · exact hold
  have hlistener : s₁.files.get? s.listen_fd = some .listener → s.files.get? s.listen_fd = some .listener := by
    intro hopen
    by_cases hclose : (s.listen_fd = c ∨ s.listen_fd = r) ∨ s.listen_fd = w
    · rw [hshut _ hclose] at hopen
      cases hopen
    · rwa [hsame _ hclose] at hopen
  refine {
    size := ?size, spare := ?spare, running := ?running, free := hshut c (Or.inl (Or.inl rfl)),
    listening := ?listening, below := ?below, idle := ?idle, live := ?live, distinct := ?distinct,
    watched := ?watched, pending := ?pending, nodup := ?nodup }
  case size =>
    show (s.clients_t.set i idle_client).length = s₁.max_connect + 1
    rw [List.length_set, hclosed.max_connect]
    exact hkept.size
  case spare =>
    intro other hother
    dsimp only at hother
    rw [hclosed.max_connect, List.getElem?_set_ne (by omega)] at hother
    exact hkept.spare other hother
  case running =>
    have hcount := countP_set_add (fun client : Client => client.used) hclient idle_client
    have hrunning := hkept.running
    rw [if_pos hused, if_neg (by decide)] at hcount
    dsimp only
    omega
  case listening =>
    intro hlisten
    dsimp only at hlisten ⊢
    rw [hclosed.listen_fd] at hlisten ⊢
    obtain ⟨hlisten, hnot⟩ := (hmem _).mp hlisten
    rw [hsame _ hnot]
    exact hkept.listening hlisten
  case below =>
    intro hlisten k hk
    dsimp only at hlisten ⊢
    rw [hclosed.listen_fd] at hlisten
    have habove_r := hlive.above_r
    have habove_w := hlive.above_w
    rw [hsame k (by omega)]
    exact hkept.below (hlistener hlisten) k hk
  case idle =>
    intro j other hother hunused
    rcases getElem?_set_cases hother with ⟨_, rfl⟩ | ⟨_, hother⟩
    · rfl
    · exact hkept.idle j other hother hunused
  case live =>
    intro j other hother hused'
    obtain ⟨hj, hother⟩ := hstill j other hother hused'
    obtain ⟨hfd', r', w', hlive'⟩ := hkept.live j other hother hused'
    obtain ⟨hrr, hrw, hwr, hww⟩ := hothers j other r' w' hj hother hused' hlive'
    have habove_r := hlive'.above_r
    have habove_w := hlive'.above_w
    refine ⟨hfd', r', w', hlive'.stays (hsame r' (by omega)) (hsame w' (by omega)) ?_ ?_⟩
    · intro child hchild
      rw [← hclosed.children] at hchild
      exact hchild
    · exact (hmem r').mpr ⟨hlive'.watched, by omega⟩
  case distinct =>
    intro j k cj ck hcj hck husedj husedk hshare
    obtain ⟨_, hcj⟩ := hstill j cj hcj husedj
    obtain ⟨_, hck⟩ := hstill k ck hck husedk
    exact hkept.distinct j k cj ck hcj hck husedj husedk hshare
  case watched =>
    intro k hk
    dsimp only at hk ⊢
    rw [hclosed.listen_fd]
    obtain ⟨hk, hnot⟩ := (hmem k).mp hk
    rcases hkept.watched k hk with hlisten | ⟨j, other, hother, hused', hpfd⟩
    · exact Or.inl hlisten
    · have hj : j ≠ i := by
        rintro rfl
        rw [hclient] at hother
        obtain rfl := Option.some.inj hother
        have hkr : (k : Int) = r := hpfd.symm.trans hlive.pfd_r
        omega
      refine Or.inr ⟨j, other, ?_, hused', hpfd⟩
      rw [List.getElem?_set_ne (Ne.symm hj)]
      exact hother
  case pending =>
    intro evt hevt
    dsimp only at hevt ⊢
    rw [hclosed.events] at hevt
    have hne := hevents evt hevt
    have hold := hkept.pending evt hevt
    obtain ⟨hc, hw⟩ := hwatched evt.fd hold (by omega)
    exact (hmem evt.fd).mpr ⟨hold, by omega⟩
  case nodup =>
    dsimp only
    rw [hclosed.events]
    exact hkept.nodup

/-! ## Creating a child -/

/-- Both ends of a new pipe lie above a number up to which all are open. -/
theorem pipe_spec {c : Nat} {s : Server} (hbelow : ∀ k ≤ c, (s.files.get? k).isSome) :
    ∃ r w files, pipe s = ({ s with files := files, pipes := s.pipes + 1 }, r, w) ∧ c < r ∧ c < w ∧ r ≠ w ∧
      s.files.get? r = none ∧ s.files.get? w = none ∧
      ∀ k, files.get? k =
        if k = w then some (.pipe_w s.pipes) else if k = r then some (.pipe_r s.pipes) else s.files.get? k := by
  obtain ⟨r, hr⟩ : ∃ r, r = s.files.lowest_free := ⟨_, rfl⟩
  obtain ⟨files, hfiles⟩ : ∃ files, files = s.files.insert r (.pipe_r s.pipes) := ⟨_, rfl⟩
  obtain ⟨w, hw⟩ : ∃ w, w = files.lowest_free := ⟨_, rfl⟩
  have hget : ∀ k, files.get? k = if k = r then some (.pipe_r s.pipes) else s.files.get? k :=
    fun k => hfiles ▸ Table.get?_insert s.files r _ k
  have hfree_r : s.files.get? r = none := hr ▸ Table.get?_lowest_free s.files
  have hfree_w : files.get? w = none := hw ▸ Table.get?_lowest_free files
  have hne : r ≠ w := by
    rintro rfl
    rw [hget, if_pos rfl] at hfree_w
    cases hfree_w
  have habove_r : c < r := hr ▸ Table.lt_lowest_free hbelow
  have habove_w : c < w := by
    rw [hw]
    apply Table.lt_lowest_free
    intro k hk
    rw [hget, if_neg (by omega)]
    exact hbelow k hk
  rw [hget, if_neg (Ne.symm hne)] at hfree_w
  refine ⟨r, w, files.insert w (.pipe_w s.pipes), ?_, habove_r, habove_w, hne, hfree_r, hfree_w, ?_⟩
  · simp only [pipe, open_fd, ← hr, ← hfiles, ← hw]
  · intro k
    rw [Table.get?_insert, hget]

/-- The child is there, its pipe ends are the only new descriptors and the one to
    read from is registered. -/
structure Created (s s' : Server) (c i pid r w : Nat) : Prop where
  max_connect : s'.max_connect = s.max_connect
  running : s'.epoll_num_running = s.epoll_num_running
  listen_fd : s'.listen_fd = s.listen_fd
  events : s'.epoll_evts = s.epoll_evts
  clients_t : s'.clients_t =
    s.clients_t.modify i fun client => { client with pid := pid, pfd_r := r, pfd_w := w }
  files : ∃ pipe pipe', ((pid : Int), pipe) ∈ s'.children ∧ ∀ k, s'.files.get? k =
    if k = c then none else if k = r then some (.pipe_r pipe)
    else if k = w then some (.pipe_w pipe') else s.files.get? k
  children : ∀ child ∈ s.children, child ∈ s'.children
  watched : ∀ k ∈ s'.watched, k = r ∨ k ∈ s.watched
  still_watched : ∀ k ∈ s.watched, (s.files.get? k).isSome → k ≠ c → k ∈ s'.watched
  registered : r ∈ s'.watched

theorem create_child_spec {c : Nat} {s : Server} (hbelow : ∀ k ≤ c, (s.files.get? k).isSome) (i pid : Nat) :
    ∃ r w s', create_child_and_exec_with_idx_clientfd s i c (.forked pid true) = (s', 0) ∧ c < r ∧ c < w ∧
      r ≠ w ∧ s.files.get? r = none ∧ s.files.get? w = none ∧ Created s s' c i pid r w := by
  obtain ⟨a, w, files₁, hpipe₁, ha, hw, haw, hfree_a, hfree_w, hget₁⟩ := pipe_spec hbelow
  obtain ⟨s₁, hs₁⟩ : ∃ s₁, s₁ = { s with files := files₁, pipes := s.pipes + 1 } := ⟨_, rfl⟩
  have hfiles₁ : ∀ k, s₁.files.get? k = if k = w then some (.pipe_w s.pipes)
      else if k = a then some (.pipe_r s.pipes) else s.files.get? k := by
    rw [hs₁]
    exact hget₁
  have hbelow₁ : ∀ k ≤ c, (s₁.files.get? k).isSome := by
    intro k hk
    rw [hfiles₁, if_neg (by omega), if_neg (by omega)]
    exact hbelow k hk
  obtain ⟨r, b, files₂, hpipe₂, hr, hb, hrb, hfree_r, hfree_b, hget₂⟩ := pipe_spec hbelow₁
  have hfresh : ∀ k, s₁.files.get? k = none → k ≠ w ∧ k ≠ a ∧ s.files.get? k = none := by
    intro k hk
    rw [hfiles₁] at hk
    split at hk
    · cases hk
    split at hk
    · cases hk
    · exact ⟨‹_›, ‹_›, hk⟩
  obtain ⟨hrw, hra, hfree_r⟩ := hfresh r hfree_r
  obtain ⟨hbw, hba, hfree_b⟩ := hfresh b hfree_b
  obtain ⟨s₂, hs₂⟩ : ∃ s₂, s₂ = { s₁ with
      files := files₂, pipes := s₁.pipes + 1, children := ((pid : Int), s.pipes + 1) :: s₁.children } := ⟨_, rfl⟩
  obtain ⟨s₃, hs₃⟩ : ∃ s₃, s₃ = close_fd (close_fd (close_fd s₂ a) b) c := ⟨_, rfl⟩
  have hclosed : Closed (fun k => (k = (a : Int) ∨ k = (b : Int)) ∨ k = (c : Int)) s₂ s₃ := by
    rw [hs₃]
    exact ((close_fd_closed s₂ a).trans (close_fd_closed _ b)).trans (close_fd_closed _ c)
  have hgone : ∀ k : Nat, (((k : Int) = a ∨ (k : Int) = b) ∨ (k : Int) = c) ↔ (k = a ∨ k = b) ∨ k = c := by
    intro k
    omega
  have hmem : ∀ k, k ∈ s₃.watched ↔ k ∈ s.watched ∧ ¬((k = a ∨ k = b) ∨ k = c) := by
    intro k
    rw [hclosed.watched k, hgone, hs₂, hs₁]
  refine ⟨r, w, { s₃ with
      clients_t := s₃.clients_t.modify i fun client => { client with pid := pid, pfd_r := r, pfd_w := w }
      watched := r :: s₃.watched }, ?_, hr, hw, hrw, hfree_r, hfree_w, ?_⟩
  · unfold create_child_and_exec_with_idx_clientfd
    rw [if_neg nofun, hpipe₁]
    dsimp only
    rw [if_neg nofun, ← hs₁, hpipe₂]
    dsimp only
    rw [← hs₂, ← hs₃]
    rfl
  · refine ⟨?_, ?_, ?_, ?_, ?_, ⟨s₁.pipes, s.pipes, ?_, ?_⟩, ?_, ?_, ?_, ?_⟩
    · exact hclosed.max_connect.trans (by rw [hs₂, hs₁])
    · exact hclosed.running.trans (by rw [hs₂, hs₁])
    · exact hclosed.listen_fd.trans (by rw [hs₂, hs₁])
    · exact hclosed.events.trans (by rw [hs₂, hs₁])
    · dsimp only
      rw [hclosed.clients_t, hs₂, hs₁]
    · dsimp only
      rw [hclosed.children, hs₂, hs₁]
      exact List.mem_cons_self
    · intro k
      dsimp only
      by_cases hk : (k = a ∨ k = b) ∨ k = c
      · rw [hclosed.shut k ((hgone k).mpr hk)]
        rcases hk with (rfl | rfl) | rfl
        · rw [if_neg (by omega), if_neg (Ne.symm hra), if_neg haw, hfree_a]
        · rw [if_neg (by omega), if_neg (Ne.symm hrb), if_neg hbw, hfree_b]
        · rw [if_pos rfl]
      · rw [hclosed.kept k fun h => hk ((hgone k).mp h), hs₂]
        dsimp only
        rw [hget₂, hfiles₁, if_neg fun h => hk (Or.inl (Or.inr h)), if_neg fun h => hk (Or.inr h)]
        by_cases hkr : k = r
        · rw [if_pos hkr, if_pos hkr]
        · rw [if_neg hkr, if_neg hkr, if_neg fun h : k = a => hk (Or.inl (Or.inl h))]
    · intro child hchild
      dsimp only
      rw [hclosed.children, hs₂, hs₁]
      exact List.mem_cons_of_mem _ hchild
    · intro k hk
      rcases List.mem_cons.mp hk with rfl | hk
      · exact Or.inl rfl
      · exact Or.inr ((hmem k).mp hk).1
    · intro k hk hopen hkc
      refine List.mem_cons_of_mem _ ((hmem k).mpr ⟨hk, ?_⟩)
      rintro ((rfl | rfl) | rfl)
      · rw [hfree_a] at hopen
        cases hopen
      · rw [hfree_b] at hopen
        cases hopen
      · exact hkc rfl
    · exact List.mem_cons_self

/-- A connection that got a slot and a child keeps the books once it is counted. -/
theorem Kept.enroll {c : Nat} {s s' : Server} (hkept : Kept c s) (hopen : s.files.get? s.listen_fd = some .listener)
    {i pid r w : Nat} {client : Client} (new : Client) (hi : i < s.max_connect)
    (hclient : s.clients_t[i]? = some client)
    (hunused : client.used = false) (hused : new.used = true) (hpid : new.pid = pid) (hfd : new.fd = c)
    (hpfd_r : new.pfd_r = r) (hpfd_w : new.pfd_w = w) (hr : c < r) (hw : c < w) (hrw : r ≠ w)
    (hfree_r : s.files.get? r = none) (hfree_w : s.files.get? w = none)
    (hmax : s'.max_connect = s.max_connect) (hlisten : s'.listen_fd = s.listen_fd)
    (hevents : s'.epoll_evts = s.epoll_evts) (hrunning : s'.epoll_num_running = s.epoll_num_running + 1)
    (hclients : s'.clients_t = s.clients_t.set i new)
    (hfiles : ∃ pipe pipe', ((pid : Int), pipe) ∈ s'.children ∧ ∀ k, s'.files.get? k =
      if k = r then some (.pipe_r pipe) else if k = w then some (.pipe_w pipe') else s.files.get? k)
    (hchildren : ∀ child ∈ s.children, child ∈ s'.children)
    (hwatched : ∀ k, k ∈ s'.watched ↔ k = r ∨ k ∈ s.watched) : Kept c s' := by
  obtain ⟨pipe, pipe', hchild, hget⟩ := hfiles
  have hi' : i < s.clients_t.length := (List.getElem?_eq_some_iff.mp hclient).1
  have hold : ∀ k file, s.files.get? k = some file → s'.files.get? k = some file := by
    intro k file hfile
    have hkr := Table.ne_of_get? hfile (by rw [hfree_r]; exact nofun)
    have hkw := Table.ne_of_get? hfile (by rw [hfree_w]; exact nofun)
    rw [hget, if_neg hkr, if_neg hkw, hfile]
  have hlive : Live c s' new r w :=
    ⟨hpfd_r, hpfd_w, hr, hw, ⟨pipe, by rw [hget, if_pos rfl], hpid ▸ hchild⟩,
      ⟨pipe', by rw [hget, if_neg (Ne.symm hrw), if_pos rfl]⟩, (hwatched r).mpr (Or.inl rfl)⟩
  -- a slot that is used is the new one or was used before
  have hcases : ∀ (j : Nat) other, s'.clients_t[j]? = some other →
      (j = i ∧ other = new) ∨ (j ≠ i ∧ s.clients_t[j]? = some other) := by
    intro j other hother
    rw [hclients] at hother
    exact getElem?_set_cases hother
  have hlive_old : ∀ (j : Nat) other, s.clients_t[j]? = some other → other.used = true →
      other.fd = c ∧ ∃ r' w', Live c s other r' w' ∧ Live c s' other r' w' ∧ r' ≠ r ∧ w' ≠ w := by
    intro j other hother hused'
    obtain ⟨hfd', r', w', hlive'⟩ := hkept.live j other hother hused'
    obtain ⟨q, hq, _⟩ := hlive'.reads
    obtain ⟨q', hq'⟩ := hlive'.writes
    refine ⟨hfd', r', w', hlive', ?_, ?_, ?_⟩
    · exact hlive'.stays ((hold r' _ hq).trans hq.symm) ((hold w' _ hq').trans hq'.symm) hchildren
        ((hwatched r').mpr (Or.inr hlive'.watched))
    · exact Table.ne_of_get? hq (by rw [hfree_r]; exact nofun)
    · exact Table.ne_of_get? hq' (by rw [hfree_w]; exact nofun)
  -- the new descriptors are no old slot's
  have hfresh : ∀ (j : Nat) other, s.clients_t[j]? = some other → other.used = true →
      ¬(new.pfd_r = other.pfd_r ∨ new.pfd_w = other.pfd_w) := by
    intro j other hother hused'
    obtain ⟨_, r', w', hlive', _, hr', hw'⟩ := hlive_old j other hother hused'
    rw [hpfd_r, hpfd_w, hlive'.pfd_r, hlive'.pfd_w]
    omega
  refine {
    size := ?size, spare := ?spare, running := ?running, free := ?free, listening := ?listening,
    below := ?below, idle := ?idle, live := ?live, distinct := ?distinct, watched := ?watched,
    pending := ?pending, nodup := ?nodup }
  case size =>
    rw [hclients, hmax, List.length_set]
    exact hkept.size
  case spare =>
    intro other hother
    rcases hcases _ other hother with ⟨hj, _⟩ | ⟨_, hother⟩
    · omega
    · rw [hmax] at hother
      exact hkept.spare other hother
  case running =>
    have hcount := countP_set_add (fun client : Client => client.used) hclient new
    rw [if_neg (by rw [hunused]; decide), if_pos hused] at hcount
    have hbefore := hkept.running
    rw [hclients]
    omega
  case free =>
    rw [hget, if_neg (by omega), if_neg (by omega)]
    exact hkept.free
  case listening =>
    intro _
    rw [hlisten]
    exact hold _ _ hopen
  case below =>
    intro _ k hk
    rw [hget, if_neg (by omega), if_neg (by omega)]
    exact hkept.below hopen k hk
  case idle =>
    intro j other hother hunused'
    rcases hcases j other hother with ⟨_, rfl⟩ | ⟨_, hother⟩
    · rw [hused] at hunused'
      cases hunused'
    · exact hkept.idle j other hother hunused'
  case live =>
    intro j other hother hused'
    rcases hcases j other hother with ⟨_, rfl⟩ | ⟨_, hother⟩
    · exact ⟨hfd, r, w, hlive⟩
    · obtain ⟨hfd', r', w', _, hlive', _⟩ := hlive_old j other hother hused'
      exact ⟨hfd', r', w', hlive'⟩
  case distinct =>
    intro j k cj ck hcj hck husedj husedk hshare
    rcases hcases j cj hcj with ⟨rfl, rfl⟩ | ⟨_, hcj⟩
    · rcases hcases k ck hck with ⟨rfl, _⟩ | ⟨_, hck⟩
      · rfl
      · exact absurd hshare (hfresh k ck hck husedk)
    · rcases hcases k ck hck with ⟨rfl, rfl⟩ | ⟨_, hck⟩
      · exact absurd (hshare.imp Eq.symm Eq.symm) (hfresh j cj hcj husedj)
      · exact hkept.distinct j k cj ck hcj hck husedj husedk hshare
  case watched =>
    intro k hk
    rcases (hwatched k).mp hk with rfl | hk
    · refine Or.inr ⟨i, new, ?_, hused, hpfd_r⟩
      rw [hclients, List.getElem?_set_self hi']
    · rcases hkept.watched k hk with hlistener | ⟨j, other, hother, hused', hpfd⟩
      · exact Or.inl (hlisten ▸ hlistener)
      · have hj : i ≠ j := by
          rintro rfl
          rw [hclient] at hother
          obtain rfl := Option.some.inj hother
          rw [hunused] at hused'
          cases hused'
        refine Or.inr ⟨j, other, ?_, hused', hpfd⟩
        rw [hclients, List.getElem?_set_ne hj]
        exact hother
  case pending =>
    intro evt hevt
    rw [hevents] at hevt
    exact (hwatched _).mpr (Or.inr (hkept.pending evt hevt))
  case nodup =>
    rw [hevents]
    exact hkept.nodup

/-! ## One event -/

/-- The books do not see how the tables are kept; the events need only be
    registered and different. -/
theorem Kept.same {c : Nat} {s s' : Server} (hkept : Kept c s) (hmax : s'.max_connect = s.max_connect)
    (hclients : s'.clients_t = s.clients_t) (hrunning : s'.epoll_num_running = s.epoll_num_running)
    (hlisten : s'.listen_fd = s.listen_fd) (hpending : ∀ evt ∈ s'.epoll_evts, evt.fd ∈ s.watched)
    (hnodup : (s'.epoll_evts.map Event.fd).Nodup)
    (hchildren : s'.children = s.children) (hfiles : ∀ k, s'.files.get? k = s.files.get? k)
    (hwatched : ∀ k, k ∈ s'.watched ↔ k ∈ s.watched) : Kept c s' := by
  refine {
    size := ?size, spare := ?spare, running := ?running, free := ?free, listening := ?listening,
    below := ?below, idle := ?idle, live := ?live, distinct := ?distinct, watched := ?watched,
    pending := ?pending, nodup := ?nodup }
  case size =>
    rw [hclients, hmax]
    exact hkept.size
  case spare =>
    rw [hclients, hmax]
    exact hkept.spare
  case running =>
    rw [hclients, hrunning]
    exact hkept.running
  case free =>
    rw [hfiles]
    exact hkept.free
  case listening =>
    rw [hlisten, hfiles, hwatched]
    exact hkept.listening
  case below =>
    intro hopen k hk
    rw [hlisten, hfiles] at hopen
    rw [hfiles]
    exact hkept.below hopen k hk
  case idle =>
    rw [hclients]
    exact hkept.idle
  case live =>
    intro i client hclient hused
    rw [hclients] at hclient
    obtain ⟨hfd, r, w, hlive⟩ := hkept.live i client hclient hused
    refine ⟨hfd, r, w, hlive.stays (hfiles r) (hfiles w) ?_ ((hwatched r).mpr hlive.watched)⟩
    rw [hchildren]
    exact fun child hchild => hchild
  case distinct =>
    rw [hclients]
    exact hkept.distinct
  case watched =>
    intro k hk
    rw [hclients, hlisten]
    exact hkept.watched k ((hwatched k).mp hk)
  case pending =>
    intro evt hevt
    exact (hwatched _).mpr (hpending evt hevt)
  case nodup =>
    exact hnodup

theorem exit_child_running (s : Server) (fd : Int) :
    (exit_child_with_sockfd s fd).epoll_num_running = s.epoll_num_running := by
  unfold exit_child_with_sockfd
  cases hfind : get_idx_with_sockfd s fd with
  | none => exact (close_fd_closed s fd).running
  | some i =>
    obtain ⟨_, client, hclient, _⟩ := find_client_eq_some hfind
    obtain ⟨s₁, hclosed, hclean⟩ := clean_client_spec hclient
    dsimp only
    rw [(close_fd_closed _ fd).running, hclean]
    exact hclosed.running

theorem hung_up_eq (s : Server) (fd : Nat) :
    hung_up s fd = { exit_child_with_sockfd s fd with epoll_num_running := s.epoll_num_running - 1 } := by
  have hrunning := exit_child_running s fd
  unfold hung_up
  unfold exit_child_with_sockfd at hrunning ⊢
  cases hfind : get_idx_with_sockfd s fd with
  | none =>
    simp only [hfind] at hrunning ⊢
    rw [hrunning]
  | some i =>
    simp only [hfind] at hrunning ⊢
    rw [hrunning]

/-- A child that is gone gives its slot back, whichever branch notices it. -/
theorem Kept.exit_child {c : Nat} {s : Server} (hkept : Kept c s) {fd : Nat} (hwatched : fd ∈ s.watched)
    (hfd : fd ≠ s.listen_fd) (hevents : ∀ evt ∈ s.epoll_evts, evt.fd ≠ fd) :
    Kept c { exit_child_with_sockfd s fd with epoll_num_running := s.epoll_num_running - 1 } := by
  obtain ⟨i, client, hfind, hi, hclient, hused, hpfd⟩ := hkept.find hwatched hfd
  obtain ⟨s₁, hclosed, hclean⟩ := clean_client_spec hclient
  have hreleased := hkept.release hi hclient hused hclosed fun evt hevt => by
    have hne := hevents evt hevt
    omega
  -- the descriptor of the event went with the slot, so closing it again does nothing
  have hgone : ((fd : Int) = client.fd ∨ (fd : Int) = client.pfd_r) ∨ (fd : Int) = client.pfd_w :=
    Or.inl (Or.inr hpfd.symm)
  unfold exit_child_with_sockfd
  rw [hfind]
  dsimp only
  rw [hclean]
  obtain ⟨s₂, hs₂⟩ : ∃ s₂, s₂ = close_fd { s₁ with clients_t := s.clients_t.set i idle_client } fd := ⟨_, rfl⟩
  have hagain : Closed (· = (fd : Int)) { s₁ with clients_t := s.clients_t.set i idle_client } s₂ :=
    hs₂ ▸ close_fd_closed _ fd
  rw [← hs₂]
  apply hreleased.same
  · exact hagain.max_connect
  · exact hagain.clients_t
  · rfl
  · exact hagain.listen_fd
  · intro evt hevt
    dsimp only at hevt
    rw [hagain.events] at hevt
    exact hreleased.pending evt hevt
  · dsimp only
    rw [hagain.events]
    exact hreleased.nodup
  · exact hagain.children
  · intro k
    dsimp only
    by_cases hk : k = fd
    · rw [hagain.shut k (by omega), hk]
      exact (hclosed.shut fd hgone).symm
    · exact hagain.kept k (by omega)
  · intro k
    refine (hagain.watched k).trans (and_iff_left_of_imp ?_)
    intro hmem hk
    obtain rfl : k = fd := by omega
    exact ((hclosed.watched k).mp hmem).2 hgone

/-- Closing the listening socket leaves the slots as they are. -/
theorem Kept.close_listener {c : Nat} {s : Server} (hkept : Kept c s) (hwatched : s.listen_fd ∈ s.watched)
    (hevents : ∀ evt ∈ s.epoll_evts, evt.fd ≠ s.listen_fd) : Kept c (close_fd s s.listen_fd) := by
  have hclosed := close_fd_closed s s.listen_fd
  have hopen := hkept.listening hwatched
  have hshut : (close_fd s s.listen_fd).files.get? s.listen_fd = none := hclosed.shut _ rfl
  have hsame : ∀ k, k ≠ s.listen_fd → (close_fd s s.listen_fd).files.get? k = s.files.get? k :=
    fun k hk => hclosed.kept k (by omega)
  have hmem : ∀ k, k ∈ (close_fd s s.listen_fd).watched ↔ k ∈ s.watched ∧ k ≠ s.listen_fd := by
    intro k
    rw [hclosed.watched k, Int.ofNat_inj]
  refine {
    size := ?size, spare := ?spare, running := ?running, free := ?free, listening := ?listening,
    below := ?below, idle := ?idle, live := ?live, distinct := ?distinct, watched := ?watched,
    pending := ?pending, nodup := ?nodup }
  case size =>
    rw [hclosed.clients_t, hclosed.max_connect]
    exact hkept.size
  case spare =>
    rw [hclosed.clients_t, hclosed.max_connect]
    exact hkept.spare
  case running =>
    rw [hclosed.clients_t, hclosed.running]
    exact hkept.running
  case free =>
    by_cases hc : c = s.listen_fd
    · rw [hc]
      exact hshut
    · rw [hsame c hc]
      exact hkept.free
  case listening =>
    intro hlisten
    rw [hclosed.listen_fd] at hlisten
    exact absurd rfl ((hmem _).mp hlisten).2
  case below =>
    intro hlisten
    rw [hclosed.listen_fd, hshut] at hlisten
    cases hlisten
  case idle =>
    rw [hclosed.clients_t]
    exact hkept.idle
  case live =>
    intro i client hclient hused
    rw [hclosed.clients_t] at hclient
    obtain ⟨hfd, r, w, hlive⟩ := hkept.live i client hclient hused
    obtain ⟨pipe, hr, _⟩ := hlive.reads
    obtain ⟨pipe', hw⟩ := hlive.writes
    have hrl := Table.ne_of_get? hr (by rw [hopen]; simp)
    have hwl := Table.ne_of_get? hw (by rw [hopen]; simp)
    refine ⟨hfd, r, w, hlive.stays (hsame r hrl) (hsame w hwl) ?_ ((hmem r).mpr ⟨hlive.watched, hrl⟩)⟩
    rw [hclosed.children]
    exact fun child hchild => hchild
  case distinct =>
    rw [hclosed.clients_t]
    exact hkept.distinct
  case watched =>
    intro k hk
    rw [hclosed.clients_t, hclosed.listen_fd]
    exact hkept.watched k ((hmem k).mp hk).1
  case pending =>
    intro evt hevt
    rw [hclosed.events] at hevt
    exact (hmem _).mpr ⟨hkept.pending evt hevt, hevents evt hevt⟩
  case nodup =>
    rw [hclosed.events]
    exact hkept.nodup

theorem Kept.free_notMem {c : Nat} {s : Server} (hkept : Kept c s) : c ∉ s.watched := by
  intro hmem
  have hc := hkept.watched_open hmem
  simp [hkept.free] at hc

/-- Without a slot the connection is closed again, and all is as before. -/
theorem Kept.turn_away {c : Nat} {s : Server} (hkept : Kept c s) :
    Kept c (close_fd { s with files := s.files.insert c .connection } c) := by
  have hclosed := close_fd_closed { s with files := s.files.insert c .connection } c
  apply hkept.same
  · exact hclosed.max_connect
  · exact hclosed.clients_t
  · exact hclosed.running
  · exact hclosed.listen_fd
  · intro evt hevt
    rw [hclosed.events] at hevt
    exact hkept.pending evt hevt
  · rw [hclosed.events]
    exact hkept.nodup
  · exact hclosed.children
  · intro k
    by_cases hk : k = c
    · rw [hclosed.shut k (by omega), hk, hkept.free]
    · rw [hclosed.kept k (by omega)]
      exact (Table.get?_insert s.files c .connection k).trans (if_neg hk)
  · intro k
    rw [hclosed.watched, Int.ofNat_inj]
    exact and_iff_left_of_imp fun hmem hk => hkept.free_notMem (hk ▸ hmem)

/-- A connection is turned away, or gets a slot and a child. -/
theorem Kept.accept {c : Nat} {s : Server} (hkept : Kept c s) (hopen : s.files.get? s.listen_fd = some .listener)
    {creation : Creation} (scid ip port : List UInt8)
    (hcreation : get_idle_idx_from_clients s ≠ none → ∃ pid, creation = .forked pid true) :
    Kept c (accepted s scid ip port creation) := by
  have hconnfd : s.files.lowest_free = c := Table.lowest_free_eq hkept.free (hkept.below hopen)
  obtain ⟨s₀, hs₀⟩ : ∃ s₀, s₀ = { s with files := s.files.insert c .connection } := ⟨_, rfl⟩
  have hopened : open_fd s .connection = (s₀, c) := by
    unfold open_fd
    rw [hconnfd, hs₀]
  have hget : ∀ k, s₀.files.get? k = if k = c then some .connection else s.files.get? k := by
    rw [hs₀]
    exact Table.get?_insert s.files c .connection
  have hidle : get_idle_idx_from_clients s₀ = get_idle_idx_from_clients s := by rw [hs₀]; rfl
  unfold accepted
  rw [hopened]
  dsimp only
  rw [hidle]
  cases hslot : get_idle_idx_from_clients s with
  | none =>
    dsimp only
    rw [hs₀]
    exact hkept.turn_away
  | some i =>
    obtain ⟨pid, rfl⟩ := hcreation (by rw [hslot]; exact nofun)
    obtain ⟨hi, client, hclient, htest⟩ := find_client_eq_some hslot
    have hi' : i < s.clients_t.length := (List.getElem?_eq_some_iff.mp hclient).1
    obtain ⟨s₁, hs₁⟩ : ∃ s₁, s₁ = { s₀ with clients_t := s₀.clients_t.modify i fun client => { client with
        used := true, fd := c, sid := snprintf 128 scid, ip := snprintf 20 ip, port := snprintf 20 port } } :=
      ⟨_, rfl⟩
    have hfiles₁ : s₁.files = s₀.files := by rw [hs₁]
    have hbelow : ∀ k ≤ c, (s₁.files.get? k).isSome := by
      intro k hk
      rw [hfiles₁, hget]
      split
      · exact Option.isSome_some
      · exact hkept.below hopen k (by omega)
    obtain ⟨r, w, s₂, hcreate, hr, hw, hrw, hfree_r, hfree_w, hcreated⟩ := create_child_spec hbelow i pid
    rw [hfiles₁, hget, if_neg (by omega)] at hfree_r hfree_w
    obtain ⟨pipe, pipe', hchild, hfiles⟩ := hcreated.files
    dsimp only
    rw [← hs₁, hcreate]
    dsimp only
    rw [if_neg (not_not_intro rfl)]
    refine hkept.enroll hopen { client with
        used := true, pid := pid, fd := c, sid := snprintf 128 scid, ip := snprintf 20 ip
        port := snprintf 20 port, pfd_r := r, pfd_w := w } hi hclient (by simpa using htest)
      rfl rfl rfl rfl rfl hr hw hrw hfree_r hfree_w ?_ ?_ ?_ ?_ ?_ ⟨pipe, pipe', hchild, ?_⟩ ?_ ?_
    · exact hcreated.max_connect.trans (by rw [hs₁, hs₀])
    · exact hcreated.listen_fd.trans (by rw [hs₁, hs₀])
    · exact hcreated.events.trans (by rw [hs₁, hs₀])
    · dsimp only
      rw [hcreated.running, hs₁, hs₀]
    · dsimp only
      rw [hcreated.clients_t, hs₁, hs₀]
      apply List.ext_getElem?
      intro j
      by_cases hj : i = j
      · subst hj
        simp [hi']
      · simp [hj]
    · intro k
      dsimp only
      rw [hfiles, hfiles₁, hget]
      by_cases hk : k = c
      · rw [if_pos hk, hk, if_neg (by omega), if_neg (by omega), hkept.free]
      · rw [if_neg hk, if_neg hk]
    · intro child hmem
      exact hcreated.children child (by rw [hs₁, hs₀]; exact hmem)
    · intro k
      dsimp only
      constructor
      · intro hk
        have hbefore := hcreated.watched k hk
        rw [hs₁, hs₀] at hbefore
        exact hbefore
      · rintro (rfl | hk)
        · exact hcreated.registered
        · have hkc : k ≠ c := fun h => hkept.free_notMem (h ▸ hk)
          refine hcreated.still_watched k ?_ ?_ hkc
          · rw [hs₁, hs₀]
            exact hk
          · rw [hfiles₁, hget, if_neg hkc]
            rcases hkept.watched_open hk with hfile | ⟨_, hfile⟩
            · rw [hfile]
              exact Option.isSome_some
            · rw [hfile]
              exact Option.isSome_some

/-- A connection comes within the attempts of the loop. -/
def connects : Nat → List AcceptResult → Bool
  | _, [] => false
  | _, .connection _ _ :: _ => true
  | accept_times, .failed errno :: accepts =>
    (errno = .EAGAIN || errno = .EINTR || errno = .EPROTO) && accept_times + 1 ≤ 5 &&
      connects (accept_times + 1) accepts

theorem Kept.accept_loop {c : Nat} {s s' : Server} (hkept : Kept c s) {answers : Answers} {accept_times : Nat}
    {accepts : List AcceptResult}
    (hcreation : connects accept_times accepts = true → get_idle_idx_from_clients s ≠ none →
      ∃ pid, answers.creation = .forked pid true)
    (hloop : accept_loop s answers accept_times accepts = .ok s') : Kept c s' := by
  induction accepts generalizing accept_times with
  | nil => cases hloop
  | cons result accepts ih =>
    cases result with
    | connection ip port =>
      unfold server.accept_loop at hloop
      split at hloop
      · next hopen =>
        cases hloop
        exact hkept.accept hopen answers.scid ip port (hcreation rfl)
      · cases hloop
    | failed errno =>
      unfold server.accept_loop at hloop
      split at hloop
      · next hagain =>
        split at hloop
        · cases hloop
          exact hkept
        · next htimes =>
          refine ih ?_ hloop
          intro hconnects
          apply hcreation
          unfold connects
          simpa [or_assoc] using ⟨⟨hagain, by omega⟩, hconnects⟩
      · cases hloop
        exact hkept

theorem Kept.read_loop {c : Nat} {s s' : Server} (hkept : Kept c s) {fd : Nat} (hwatched : fd ∈ s.watched)
    (hfd : fd ≠ s.listen_fd) (hevents : ∀ evt ∈ s.epoll_evts, evt.fd ≠ fd) {reads : List ReadResult}
    (hloop : read_loop s fd reads = .ok s') : Kept c s' := by
  have hexit := hkept.exit_child hwatched hfd hevents
  induction reads with
  | nil => cases hloop
  | cons result reads ih =>
    cases result with
    | failed errno =>
      cases errno
      all_goals
        cases hloop
        assumption
    | data bytes =>
      cases bytes with
      | nil =>
        cases hloop
        exact hexit
      | cons byte bytes => exact ih hloop

/-- A child is there, and the pipe to read from is registered. -/
def completes : Creation → Bool
  | .forked _ true => true
  | _ => false

theorem completes_iff {creation : Creation} : completes creation = true ↔ ∃ pid, creation = .forked pid true := by
  constructor
  · intro hcompletes
    cases creation with
    | forked pid epoll_added =>
      cases epoll_added with
      | true => exact ⟨pid, rfl⟩
      | false => cases hcompletes
    | _ => cases hcompletes
  · rintro ⟨pid, rfl⟩
    rfl

/-- What an event asks of the kernel for its slot to stay in the books: no error
    on the pipe of a child, and a child for every connection that gets a slot. -/
def Sound (s : Server) (evt : Event) (answers : Answers) : Prop :=
  if evt.epollerr then evt.fd = s.listen_fd
  else evt.epollin = true → evt.fd = s.listen_fd → connects 0 answers.accepts = true →
    get_idle_idx_from_clients s ≠ none → completes answers.creation = true

instance (s : Server) (evt : Event) (answers : Answers) : Decidable (Sound s evt answers) :=
  inferInstanceAs (Decidable (if evt.epollerr = true then evt.fd = s.listen_fd
    else evt.epollin = true → evt.fd = s.listen_fd → connects 0 answers.accepts = true →
      get_idle_idx_from_clients s ≠ none → completes answers.creation = true))

theorem Kept.handle_event {c : Nat} {s s' : Server} (hkept : Kept c s) {evt : Event} {answers : Answers}
    (hwatched : evt.fd ∈ s.watched) (hevents : ∀ other ∈ s.epoll_evts, other.fd ≠ evt.fd)
    (hsound : Sound s evt answers) (hhandle : handle_event s evt answers = .ok s') : Kept c s' := by
  have hblocked : Kept c { s with sigchld_blocked := true } :=
    hkept.same rfl rfl rfl rfl hkept.pending hkept.nodup rfl (fun _ => rfl) fun _ => Iff.rfl
  unfold Sound at hsound
  unfold server.handle_event at hhandle
  by_cases herr : evt.epollerr = true
  · rw [if_pos herr] at hsound hhandle
    cases hhandle
    rw [hsound] at hwatched hevents ⊢
    exact hblocked.close_listener hwatched hevents
  · rw [if_neg herr] at hsound hhandle
    have hunblocked : ∀ t, Kept c t → Kept c { t with sigchld_blocked := false } := fun t hkept' =>
      hkept'.same rfl rfl rfl rfl hkept'.pending hkept'.nodup rfl (fun _ => rfl) fun _ => Iff.rfl
    dsimp only at hhandle
    split at hhandle
    · next hin =>
      split at hhandle
      · next hlisten =>
        obtain ⟨t, hloop, hdone⟩ := bind_eq_ok_iff.mp hhandle
        cases hdone
        have hcreation := fun hconnects hidle => completes_iff.mp (hsound hin hlisten hconnects hidle)
        exact hunblocked t (hblocked.accept_loop hcreation hloop)
      · next hlisten =>
        obtain ⟨t, hloop, hdone⟩ := bind_eq_ok_iff.mp hhandle
        cases hdone
        exact hunblocked t (hblocked.read_loop hwatched hlisten hevents hloop)
    · split at hhandle
      · next hhup =>
        cases hhandle
        apply hunblocked
        rw [hung_up_eq]
        exact hblocked.exit_child hwatched hhup.2 hevents
      · cases hhandle
        exact hunblocked _ hblocked

/-! ## Whole runs -/

/-- The slots agree with the counter and with the children. -/
structure Accounted (s : Server) : Prop where
  running : s.epoll_num_running = s.clients_t.countP (·.used)
  live : ∀ (i : Nat) client, s.clients_t[i]? = some client → client.used = true →
    ∃ r : Nat, ∃ pipe, client.pfd_r = r ∧ s.files.get? r = some (.pipe_r pipe) ∧ r ∈ s.watched ∧
      (client.pid, pipe) ∈ s.children
  distinct : ∀ (i j : Nat) ci cj, s.clients_t[i]? = some ci → s.clients_t[j]? = some cj → ci.used = true →
    cj.used = true → ci.pfd_r = cj.pfd_r → i = j
  full : get_idle_idx_from_clients s = none → s.epoll_num_running = s.max_connect

theorem Kept.accounted {c : Nat} {s : Server} (hkept : Kept c s) : Accounted s := by
  refine ⟨hkept.running, ?_, ?_, ?_⟩
  · intro i client hclient hused
    obtain ⟨_, r, w, hlive⟩ := hkept.live i client hclient hused
    obtain ⟨pipe, hr, hchild⟩ := hlive.reads
    exact ⟨r, pipe, hlive.pfd_r, hr, hlive.watched, hchild⟩
  · intro i j ci cj hci hcj husedi husedj hshare
    exact hkept.distinct i j ci cj hci hcj husedi husedj (Or.inl hshare)
  · intro hfull
    have hall : ∀ client ∈ s.clients_t.take s.max_connect, client.used = true := by
      intro client hmem
      unfold get_idle_idx_from_clients find_client at hfull
      simpa using List.findIdx?_eq_none_iff.mp hfull client hmem
    have hspare : ∀ client ∈ s.clients_t.drop s.max_connect, ¬client.used = true := by
      intro client hmem
      obtain ⟨k, hk⟩ := List.mem_iff_getElem?.mp hmem
      rw [List.getElem?_drop] at hk
      obtain ⟨hlt, _⟩ := List.getElem?_eq_some_iff.mp hk
      have hsize := hkept.size
      rw [show s.max_connect + k = s.max_connect by omega] at hk
      rw [hkept.spare client hk]
      decide
    have hsize := hkept.size
    have hcount : s.clients_t.countP (·.used) = s.max_connect := by
      rw [← List.take_append_drop s.max_connect s.clients_t, List.countP_append, List.countP_eq_length.mpr hall,
        List.countP_eq_zero.mpr hspare, List.length_take]
      omega
    rw [hkept.running, hcount]

/-- The condition on a step: `Sound` for the event that it handles. -/
def Undisturbed (s : Server) : Command → Prop
  | .epoll_wait _ => True
  | .event answers => ∀ evt ∈ s.epoll_evts.head?, Sound s evt answers

instance (s : Server) : ∀ command, Decidable (Undisturbed s command)
  | .epoll_wait _ => inferInstanceAs (Decidable True)
  | .event answers => inferInstanceAs (Decidable (∀ evt ∈ s.epoll_evts.head?, Sound s evt answers))

/-- A step takes what `epoll_wait` reports, or calls the handler for the next event
    of it. -/
theorem step_inv {s s' : Server} {command : Command} {u : Unit} (hstep : step s command = .ok (s', u)) :
    (∃ events, command = .epoll_wait events ∧ s.epoll_evts = [] ∧ (∀ evt ∈ events, evt.fd ∈ s.watched) ∧
      (events.map Event.fd).Nodup ∧ s' = { s with epoll_evts := events }) ∨
    ∃ evt evts answers, command = .event answers ∧ s.epoll_evts = evt :: evts ∧
      handle_event { s with epoll_evts := evts } evt answers = .ok s' := by
  cases hevts : s.epoll_evts with
  | nil =>
    cases command with
    | event answers =>
      simp only [step, hevts] at hstep
      cases hstep
    | epoll_wait events =>
      simp only [step, hevts] at hstep
      split at hstep
      · next hreported =>
        cases hstep
        exact Or.inl ⟨events, rfl, rfl, hreported.1, hreported.2, rfl⟩
      · cases hstep
  | cons evt evts =>
    cases command with
    | epoll_wait events =>
      simp only [step, hevts] at hstep
      cases hstep
    | event answers =>
      simp only [step, hevts] at hstep
      obtain ⟨t, hhandle, hdone⟩ := bind_eq_ok_iff.mp hstep
      cases hdone
      exact Or.inr ⟨evt, evts, answers, rfl, rfl, hhandle⟩

theorem step_keeps {c : Nat} {s s' : Server} {command : Command} {u : Unit} (hkept : Kept c s)
    (hundisturbed : Undisturbed s command) (hstep : step s command = .ok (s', u)) : Kept c s' := by
  obtain ⟨events, _, _, hreported, hnodup, rfl⟩ | ⟨evt, evts, answers, rfl, hevts, hhandle⟩ := step_inv hstep
  · exact hkept.same rfl rfl rfl rfl hreported hnodup rfl (fun _ => rfl) fun _ => Iff.rfl
  · have hpending := hkept.pending evt (by rw [hevts]; exact List.mem_cons_self)
    have hnodup := hkept.nodup
    rw [hevts, List.map_cons, List.nodup_cons] at hnodup
    have hsound : Sound { s with epoll_evts := evts } evt answers :=
      hundisturbed evt (by rw [hevts, List.head?_cons, Option.mem_some_iff])
    have hrest : Kept c { s with epoll_evts := evts } := by
      refine hkept.same rfl rfl rfl rfl (fun other hother => hkept.pending other ?_) hnodup.2 rfl
        (fun _ => rfl) fun _ => Iff.rfl
      rw [hevts]
      exact List.mem_cons_of_mem evt hother
    apply hrest.handle_event hpending ?_ hsound hhandle
    intro other hother heq
    exact hnodup.1 (heq ▸ List.mem_map_of_mem hother)

theorem start_kept {max_connect : Nat} {files : Table File} {listen_fd : Nat}
    (hlisten : files.get? listen_fd = some .listener) :
    Kept files.lowest_free (start max_connect files listen_fd) := by
  have hidle : ∀ (i : Nat) client, (start max_connect files listen_fd).clients_t[i]? = some client →
      client = idle_client := by
    intro i client hclient
    exact List.eq_of_mem_replicate (List.mem_of_getElem? hclient)
  have hunused : ∀ (i : Nat) client, (start max_connect files listen_fd).clients_t[i]? = some client →
      client.used = true → False := by
    intro i client hclient hused
    rw [hidle i client hclient] at hused
    cases hused
  refine ⟨List.length_replicate, ?_, ?_, Table.get?_lowest_free files, fun _ => hlisten, ?_, ?_, ?_, ?_, ?_,
    nofun, List.nodup_nil⟩
  · intro client hclient
    rw [hidle _ client hclient]
    rfl
  · show (0 : Int) = ((List.replicate (max_connect + 1) idle_client).countP (·.used) : Nat)
    rw [List.countP_replicate]
    rfl
  · intro _ k hk
    exact Table.isSome_of_lt_lowest_free hk
  · intro i client hclient _
    exact hidle i client hclient
  · intro i client hclient hused
    exact (hunused i client hclient hused).elim
  · intro i j ci cj hci _ hused
    exact (hunused i ci hci hused).elim
  · intro k hk
    exact Or.inl (List.mem_singleton.mp hk)

/-- Along every run without an error on a child's pipe and with a child for every
    connection that gets a slot, the slots agree with the counter and the children
    whenever an event was handled, so also at each `epoll_wait`. -/
theorem accounted_along_run {max_connect : Nat} {files : Table File} {listen_fd : Nat}
    (hlisten : files.get? listen_fd = some .listener) {commands : List Command} {s : Server} {outputs : List Unit}
    (hundisturbed : Guarded step Undisturbed (start max_connect files listen_fd) commands)
    (hrun : run step (start max_connect files listen_fd) commands = .ok (s, outputs)) : Accounted s := by
  have hkept := run_keeps (Kept files.lowest_free)
    (fun _ _ _ _ hkept hsound hstep => step_keeps hkept hsound hstep) (start_kept hlisten) hundisturbed hrun
  exact hkept.accounted

/-- The standard descriptors, the listening socket and the one of epoll. -/
def initial_files : Table File := [(0, .other), (1, .other), (2, .other), (3, .listener), (4, .other)]

/-- One connection whose child gets descriptor 8 to be read from. -/
def one_connection (creation : Creation) : List Command :=
  [.epoll_wait [{ fd := 3, epollerr := false, epollin := true, epollhup := false }],
    .event { scid := [65], accepts := [.failed .EINTR, .connection [49] [50]], creation := creation, reads := [] }]

/-- A connection and then the end of its child. -/
def one_child : List Command :=
  one_connection (.forked 100 true) ++
    [.epoll_wait [{ fd := 8, epollerr := false, epollin := true, epollhup := true }],
      .event { scid := [], accepts := [], creation := .pipe1_failed, reads := [.data [7], .data []] }]

theorem accounted_along_run_one :
    ∃ s outputs, run step (start 1 initial_files 3) one_child = .ok (s, outputs) ∧
      s.epoll_num_running = 0 ∧ Accounted s := by
  obtain ⟨s, outputs, hrun, hrunning⟩ := run_of_view (fun s : Server => s.epoll_num_running)
    (by decide +kernel : (run step (start 1 initial_files 3) one_child).toOption.map
      (fun r => r.1.epoll_num_running) = some 0)
  exact ⟨s, outputs, hrun, hrunning, accounted_along_run (by decide) (by decide +kernel) hrun⟩

/-- When `pipe` fails for a connection its slot stays taken and is not counted. -/
theorem failed_pipe_keeps_slot :
    ∃ s outputs, run step (start 1 initial_files 3) (one_connection .pipe1_failed) = .ok (s, outputs) ∧
      s.epoll_evts = [] ∧ ¬Accounted s := by
  obtain ⟨s, outputs, hrun, hview⟩ := run_of_view
    (fun s : Server => (s.epoll_evts, s.epoll_num_running, s.clients_t.countP (·.used)))
    (by decide +kernel : (run step (start 1 initial_files 3) (one_connection .pipe1_failed)).toOption.map
      (fun r => (r.1.epoll_evts, r.1.epoll_num_running, r.1.clients_t.countP (·.used))) = some ([], 0, 1))
  obtain ⟨hwait, hrunning, hused⟩ := by simpa only [Prod.mk.injEq] using hview
  refine ⟨s, outputs, hrun, hwait, fun haccounted => ?_⟩
  have hcount := haccounted.running
  rw [hrunning, hused] at hcount
  cases hcount

end code_tools.server_epoll.server
