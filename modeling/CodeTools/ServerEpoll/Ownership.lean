import CodeTools.ServerEpoll.Slots

/-!
# The descriptors that the parent closes

Every descriptor that comes and goes while a connection is accepted is closed by
its owner. When a child ends, its slot is cleaned with a connection that was
closed before, and the event's descriptor is closed once more behind the slot.
-/

namespace code_tools.server_epoll.server

open cmem descriptor machine syscall

/-- The descriptor came from `accept` or `pipe`. -/
def File.opened : File → Bool
  | .connection | .pipe_r _ | .pipe_w _ => true
  | .listener | .other => false

/-- Everything that was closed was open, and had been opened by the parent. -/
def Rightful (s : Server) : Prop := ∀ entry ∈ s.closes, ∃ file, entry.2 = some file ∧ file.opened = true

/-! ## Opening and closing beside what is open -/

/-- `s` was reached from `s₀` by opening and closing other descriptors; those of
    `own` are still open. -/
structure Beside (s₀ s : Server) (own : List (Nat × File)) : Prop where
  listen_fd : s.listen_fd = s₀.listen_fd
  events : s.epoll_evts = s₀.epoll_evts
  kept : ∀ k, (s₀.files.get? k).isSome → s.files.get? k = s₀.files.get? k
  held : ∀ x ∈ own, s.files.get? x.1 = some x.2 ∧ s₀.files.get? x.1 = none
  nodup : (own.map Prod.fst).Nodup
  watched : ∀ k ∈ s.watched, k ∈ s₀.watched
  still : ∀ k ∈ s₀.watched, (s₀.files.get? k).isSome → k ∈ s.watched
  closes : ∃ made, s.closes = s₀.closes ++ made ∧ ∀ entry ∈ made, ∃ file, entry.2 = some file ∧ file.opened = true

variable {s₀ s s' : Server} {own : List (Nat × File)}

theorem Beside.refl (s : Server) : Beside s s [] :=
  ⟨rfl, rfl, fun _ _ => rfl, by simp, by simp, fun _ hk => hk, fun _ hk _ => hk, [], by simp, by simp⟩

theorem Beside.perm {own' : List (Nat × File)} (hbeside : Beside s₀ s own) (hperm : own.Perm own') :
    Beside s₀ s own' :=
  { hbeside with
    held := fun x hx => hbeside.held x (hperm.mem_iff.mpr hx)
    nodup := (hperm.map Prod.fst).nodup_iff.mp hbeside.nodup }

/-- The fields that do not matter here. -/
theorem Beside.same (hbeside : Beside s₀ s own) (hlisten : s'.listen_fd = s.listen_fd)
    (hevents : s'.epoll_evts = s.epoll_evts) (hfiles : s'.files = s.files) (hwatched : s'.watched = s.watched)
    (hcloses : s'.closes = s.closes) : Beside s₀ s' own := by
  obtain ⟨h₁, h₂, h₃, h₄, h₅, h₆, h₇, h₈⟩ := hbeside
  exact ⟨hlisten.trans h₁, hevents.trans h₂, by rwa [hfiles], by rwa [hfiles], h₅, by rwa [hwatched],
    by rwa [hwatched], by rwa [hcloses]⟩

/-- A new descriptor is none of those that are open. -/
theorem Beside.open_fd (hbeside : Beside s₀ s own) (file : File) :
    Beside s₀ (open_fd s file).1 (((open_fd s file).2, file) :: own) := by
  have hget : ∀ k, (server.open_fd s file).1.files.get? k =
      if k = s.files.lowest_free then some file else s.files.get? k :=
    fun k => Table.get?_insert s.files _ file k
  have hne : ∀ k, (s.files.get? k).isSome → k ≠ s.files.lowest_free := by
    rintro k hsome rfl
    simp at hsome
  have hfree : s₀.files.get? s.files.lowest_free = none := by
    by_contra hopen
    have hsome := Option.isSome_iff_ne_none.mpr hopen
    exact hne _ (by rw [hbeside.kept _ hsome]; exact hsome) rfl
  refine ⟨hbeside.listen_fd, hbeside.events, ?_, ?_, ?_, hbeside.watched, hbeside.still, hbeside.closes⟩
  · intro k hk
    have hsame := hbeside.kept k hk
    rw [hget, if_neg (hne k (by rw [hsame]; exact hk)), hsame]
  · intro x hx
    rcases List.mem_cons.mp hx with rfl | hx
    · exact ⟨by rw [hget]; exact if_pos rfl, hfree⟩
    · obtain ⟨hopen, hbase⟩ := hbeside.held x hx
      refine ⟨?_, hbase⟩
      rw [hget, if_neg (hne _ (by rw [hopen]; rfl)), hopen]
  · rw [List.map_cons, List.nodup_cons]
    refine ⟨fun hmem => ?_, hbeside.nodup⟩
    obtain ⟨x, hx, heq⟩ := List.mem_map.mp hmem
    exact hne x.1 (by rw [(hbeside.held x hx).1]; rfl) heq

/-- The owner closes a descriptor. -/
theorem Beside.close_fd {k : Nat} {file : File} (hbeside : Beside s₀ s ((k, file) :: own))
    (hopened : file.opened = true) : Beside s₀ (close_fd s k) own := by
  obtain ⟨hopen, hfree⟩ := hbeside.held (k, file) List.mem_cons_self
  have hnodup := hbeside.nodup
  rw [List.map_cons, List.nodup_cons] at hnodup
  have hclosed := close_fd_closed s k
  have hkept : ∀ j : Nat, j ≠ k → (server.close_fd s k).files.get? j = s.files.get? j :=
    fun j hj => hclosed.kept j (by omega)
  have hne : ∀ j, (s₀.files.get? j).isSome → j ≠ k := by
    rintro j hsome rfl
    rw [hfree] at hsome
    cases hsome
  refine ⟨hclosed.listen_fd.trans hbeside.listen_fd, hclosed.events.trans hbeside.events, ?_, ?_, hnodup.2, ?_, ?_, ?_⟩
  · intro j hj
    rw [hkept j (hne j hj)]
    exact hbeside.kept j hj
  · intro x hx
    have hx' : x.1 ≠ k := by
      rintro rfl
      exact hnodup.1 (List.mem_map.mpr ⟨x, hx, rfl⟩)
    rw [hkept x.1 hx']
    exact hbeside.held x (List.mem_cons_of_mem _ hx)
  · intro j hj
    exact hbeside.watched j ((hclosed.watched j).mp hj).1
  · intro j hj hsome
    exact (hclosed.watched j).mpr ⟨hbeside.still j hj hsome, by have := hne j hsome; omega⟩
  · obtain ⟨made, hcloses, hmade⟩ := hbeside.closes
    refine ⟨made ++ [((k : Int), some file)], ?_, ?_⟩
    · have hlog : (server.close_fd s k).closes = s.closes ++ [((k : Int), s.files.get? k)] := by
        unfold server.close_fd
        rw [if_neg (by omega)]
        simp
      rw [hlog, hcloses, List.append_assoc, hopen]
    · intro entry hentry
      rcases List.mem_append.mp hentry with hentry | hentry
      · exact hmade entry hentry
      · obtain rfl := List.mem_singleton.mp hentry
        exact ⟨file, rfl, hopened⟩

/-- Both ends of a pipe. -/
theorem Beside.pipe (hbeside : Beside s₀ s own) :
    ∃ s' r w, pipe s = (s', r, w) ∧
      Beside s₀ s' ((w, .pipe_w s.pipes) :: (r, .pipe_r s.pipes) :: own) := by
  refine ⟨_, _, _, rfl, ?_⟩
  exact ((hbeside.open_fd _).open_fd _).same rfl rfl rfl rfl rfl

/-- What a step that accepts does to the descriptors: those that were open stay,
    the reading end of a new pipe may be registered. -/
structure Grown (s₀ s : Server) : Prop where
  listen_fd : s.listen_fd = s₀.listen_fd
  events : s.epoll_evts = s₀.epoll_evts
  kept : ∀ k, (s₀.files.get? k).isSome → s.files.get? k = s₀.files.get? k
  watched : ∀ k ∈ s.watched, k ∈ s₀.watched ∨ ∃ pipe, s.files.get? k = some (.pipe_r pipe)
  still : ∀ k ∈ s₀.watched, (s₀.files.get? k).isSome → k ∈ s.watched
  closes : ∃ made, s.closes = s₀.closes ++ made ∧ ∀ entry ∈ made, ∃ file, entry.2 = some file ∧ file.opened = true

theorem Beside.grown (hbeside : Beside s₀ s own) : Grown s₀ s :=
  ⟨hbeside.listen_fd, hbeside.events, hbeside.kept, fun k hk => Or.inl (hbeside.watched k hk), hbeside.still,
    hbeside.closes⟩

theorem Beside.register {r pipe : Nat} (hbeside : Beside s₀ s ((r, .pipe_r pipe) :: own)) (clients_t : List Client)
    (epoll_added : Bool) :
    Grown s₀ { s with
      clients_t := clients_t, watched := if epoll_added then r :: s.watched else s.watched } := by
  have hreads := (hbeside.held (r, .pipe_r pipe) List.mem_cons_self).1
  refine ⟨hbeside.listen_fd, hbeside.events, hbeside.kept, ?_, ?_, hbeside.closes⟩
  · intro k hk
    dsimp only at hk ⊢
    split at hk
    · rcases List.mem_cons.mp hk with rfl | hk
      · exact Or.inr ⟨pipe, hreads⟩
      · exact Or.inl (hbeside.watched k hk)
    · exact Or.inl (hbeside.watched k hk)
  · intro k hk hsome
    have hold := hbeside.still k hk hsome
    dsimp only
    split
    · exact List.mem_cons_of_mem r hold
    · exact hold

/-- The order in which the parent closes what it gave to a child. -/
theorem forked_perm {α : Type} (b r w a c : α) : [b, r, w, a, c].Perm [a, b, c, r, w] := by
  have hlast : [r, w, c].Perm [c, r, w] := @List.perm_append_comm α [r, w] [c]
  exact (@List.perm_middle α a [b, r, w] [c]).trans ((hlast.cons b).cons a)

theorem fork_failed_perm {α : Type} (b r w a c : α) : [b, r, w, a, c].Perm [a, w, r, b, c] :=
  (List.reverse_perm [a, w, r, b]).append_right [c]

/-- The connection is still the parent's when no child could be created. -/
theorem Beside.create {c : Nat} (hbeside : Beside s₀ s [(c, .connection)]) (i : Nat) (creation : Creation) :
    ((create_child_and_exec_with_idx_clientfd s i c creation).2 ≠ 0 →
      Beside s₀ (create_child_and_exec_with_idx_clientfd s i c creation).1 [(c, .connection)]) ∧
    ((create_child_and_exec_with_idx_clientfd s i c creation).2 = 0 →
      Grown s₀ (create_child_and_exec_with_idx_clientfd s i c creation).1) := by
  unfold create_child_and_exec_with_idx_clientfd
  by_cases hfirst : creation = .pipe1_failed
  · rw [if_pos hfirst]
    exact ⟨fun _ => hbeside, fun hzero => absurd hzero (by simp)⟩
  rw [if_neg hfirst]
  obtain ⟨s₁, a, w, hpipe₁, hpipe⟩ := hbeside.pipe
  simp only [hpipe₁]
  by_cases hsecond : creation = .pipe2_failed
  · rw [if_pos hsecond]
    refine ⟨fun _ => ?_, fun hzero => absurd hzero (by simp)⟩
    exact ((hpipe.perm (List.Perm.swap _ _ _)).close_fd rfl).close_fd rfl
  rw [if_neg hsecond]
  obtain ⟨s₂, r, b, hpipe₂, hpipes⟩ := hpipe.pipe
  simp only [hpipe₂]
  cases creation with
  | forked pid epoll_added =>
    refine ⟨fun hne => absurd rfl hne, fun _ => ?_⟩
    have hchild : Beside s₀ { s₂ with children := ((pid : Int), s₁.pipes) :: s₂.children } _ :=
      hpipes.same rfl rfl rfl rfl rfl
    have hclosed := hchild.perm (forked_perm _ _ _ _ _)
    exact (((hclosed.close_fd rfl).close_fd rfl).close_fd rfl).register _ epoll_added
  | pipe1_failed => exact absurd rfl hfirst
  | pipe2_failed => exact absurd rfl hsecond
  | fork_failed =>
    refine ⟨fun _ => ?_, fun hzero => absurd hzero (by simp)⟩
    have hclosed := hpipes.perm (fork_failed_perm _ _ _ _ _)
    exact (((hclosed.close_fd rfl).close_fd rfl).close_fd rfl).close_fd rfl

/-- Nothing was opened or closed. -/
theorem Grown.same (hgrown : Grown s₀ s) (hlisten : s'.listen_fd = s.listen_fd)
    (hevents : s'.epoll_evts = s.epoll_evts) (hfiles : s'.files = s.files) (hwatched : s'.watched = s.watched)
    (hcloses : s'.closes = s.closes) : Grown s₀ s' := by
  obtain ⟨h₁, h₂, h₃, h₄, h₅, h₆⟩ := hgrown
  exact ⟨hlisten.trans h₁, hevents.trans h₂, by rwa [hfiles], by rwa [hfiles, hwatched], by rwa [hwatched],
    by rwa [hcloses]⟩

theorem grown_accepted (s : Server) (scid ip port : List UInt8) (creation : Creation) :
    Grown s (accepted s scid ip port creation) := by
  have hopen := (Beside.refl s).open_fd .connection
  unfold accepted
  dsimp only
  generalize open_fd s .connection = opened at hopen
  obtain ⟨s₁, connfd⟩ := opened
  dsimp only at hopen ⊢
  cases hidle : get_idle_idx_from_clients s₁ with
  | none => exact (hopen.close_fd rfl).grown
  | some i =>
    dsimp only
    obtain ⟨s₂, hs₂⟩ : ∃ s₂, s₂ = { s₁ with
      clients_t := s₁.clients_t.modify i fun client =>
        { client with
          used := true, fd := connfd, sid := snprintf 128 scid, ip := snprintf 20 ip, port := snprintf 20 port } } :=
      ⟨_, rfl⟩
    have htaken : Beside s s₂ [(connfd, .connection)] := by
      subst hs₂
      exact hopen.same rfl rfl rfl rfl rfl
    rw [← hs₂]
    obtain ⟨hfailed, hcreated⟩ := htaken.create i creation
    generalize create_child_and_exec_with_idx_clientfd s₂ i connfd creation = made at hfailed hcreated
    obtain ⟨s₃, ret⟩ := made
    dsimp only at hfailed hcreated ⊢
    by_cases hret : ret = 0
    · rw [if_neg (not_not_intro hret)]
      exact (hcreated hret).same rfl rfl rfl rfl rfl
    · rw [if_pos hret]
      exact ((hfailed hret).close_fd rfl).grown

theorem grown_accept_loop {answers : Answers} {accepts : List AcceptResult} {accept_times : Nat}
    (hloop : accept_loop s answers accept_times accepts = .ok s') : Grown s s' := by
  induction accepts generalizing accept_times with
  | nil => cases hloop
  | cons result accepts ih =>
    cases result with
    | connection ip port =>
      unfold accept_loop at hloop
      split at hloop
      · cases hloop
        exact grown_accepted s answers.scid ip port answers.creation
      · cases hloop
    | failed errno =>
      unfold accept_loop at hloop
      split at hloop
      · split at hloop
        · cases hloop
          exact (Beside.refl s).grown
        · exact ih hloop
      · cases hloop
        exact (Beside.refl s).grown

/-! ## The end of a child -/

/-- The results of `read` end in one that ends the child. -/
def reads_end : List ReadResult → Bool
  | [] => false
  | .failed errno :: _ => errno ≠ .EAGAIN
  | .data [] :: _ => true
  | .data (_ :: _) :: reads => reads_end reads

theorem read_loop_eq {fd : Nat} {reads : List ReadResult} (hloop : read_loop s fd reads = .ok s') :
    s' = if reads_end reads then { exit_child_with_sockfd s fd with epoll_num_running := s.epoll_num_running - 1 }
      else s := by
  induction reads with
  | nil => cases hloop
  | cons result reads ih =>
    cases result with
    | failed errno =>
      cases errno
      all_goals
        cases hloop
        rfl
    | data bytes =>
      cases bytes with
      | nil =>
        cases hloop
        rfl
      | cons byte bytes => exact ih hloop

theorem close_fd_closes (s : Server) (fd : Nat) :
    (close_fd s fd).closes = s.closes ++ [((fd : Int), s.files.get? fd)] := by
  unfold close_fd
  rw [if_neg (by omega)]
  rfl

/-- The log only grows. -/
theorem close_fd_logs (s : Server) (fd : Int) : s.closes <+: (close_fd s fd).closes := by
  unfold close_fd
  split <;> exact List.prefix_append _ _

theorem clean_client_logs (s : Server) (i : Nat) : s.closes <+: (clean_client_with_idx s i).closes := by
  have hunless : ∀ (t : Server) (fd : Int), t.closes <+: (if fd ≠ -1 then close_fd t fd else t).closes := by
    intro t fd
    split
    · exact close_fd_logs t fd
    · exact List.prefix_rfl
  unfold clean_client_with_idx
  split
  · exact List.prefix_rfl
  · exact ((hunless _ _).trans (hunless _ _)).trans (hunless _ _)

theorem exit_child_logs (s : Server) (fd : Int) : s.closes <+: (exit_child_with_sockfd s fd).closes := by
  unfold exit_child_with_sockfd
  split
  · exact close_fd_logs s fd
  · exact (clean_client_logs s _).trans (close_fd_logs _ fd)

/-- A slot that is found has the descriptor closed before its caller closes it. -/
theorem exit_child_again {fd : Nat} (hfind : get_idx_with_sockfd s fd ≠ none) :
    ((fd : Int), none) ∈ (exit_child_with_sockfd s fd).closes := by
  obtain ⟨i, hi⟩ := Option.ne_none_iff_exists'.mp hfind
  obtain ⟨_, client, hclient, htest⟩ := find_client_eq_some hi
  obtain ⟨t, hclosed, hclean⟩ := clean_client_spec hclient
  have hpfd_r : client.pfd_r = fd := (by simpa using htest : client.pfd_r = fd ∧ client.used = true).1
  have hgone : t.files.get? fd = none := hclosed.shut fd (Or.inl (Or.inr hpfd_r.symm))
  unfold exit_child_with_sockfd
  rw [hi]
  dsimp only
  rw [hclean, close_fd_closes, hgone]
  exact List.mem_append_right _ List.mem_cons_self

/-! ## One event -/

/-- The event ends the child that writes to its descriptor. -/
def ends_child (s : Server) (evt : Event) (answers : Answers) : Bool :=
  !evt.epollerr && evt.fd ≠ s.listen_fd && if evt.epollin then reads_end answers.reads else evt.epollhup

/-- No error is reported for the listening socket, and a child that ends has no slot. -/
def Harmless (s : Server) (evt : Event) (answers : Answers) : Prop :=
  (evt.epollerr = true → evt.fd ≠ s.listen_fd) ∧
    (ends_child s evt answers = true → get_idx_with_sockfd s evt.fd = none)

instance (s : Server) (evt : Event) (answers : Answers) : Decidable (Harmless s evt answers) :=
  inferInstanceAs (Decidable ((evt.epollerr = true → evt.fd ≠ s.listen_fd) ∧
    (ends_child s evt answers = true → get_idx_with_sockfd s evt.fd = none)))

/-- What one event does to the descriptors, apart from the signal mask and the counter. -/
inductive Handled (s : Server) (evt : Event) (answers : Answers) (s' : Server) : Prop where
  | error (herr : evt.epollerr = true) (hends : ends_child s evt answers = false)
      (hclosed : s' = close_fd { s with sigchld_blocked := true } evt.fd)
  | ended (herr : evt.epollerr = false) (hends : ends_child s evt answers = true)
      (hclosed : s' = { exit_child_with_sockfd { s with sigchld_blocked := true } evt.fd with
        epoll_num_running := s.epoll_num_running - 1, sigchld_blocked := false })
  | grown (herr : evt.epollerr = false) (hends : ends_child s evt answers = false) (hgrown : Grown s s')

theorem handle_event_handled {evt : Event} {answers : Answers} (hhandle : handle_event s evt answers = .ok s') :
    Handled s evt answers s' := by
  unfold handle_event at hhandle
  by_cases herr : evt.epollerr = true
  · rw [if_pos herr] at hhandle
    cases hhandle
    exact .error herr (by simp [ends_child, herr]) rfl
  rw [if_neg herr] at hhandle
  rw [Bool.not_eq_true] at herr
  dsimp only at hhandle
  have hunchanged : Grown s { s with sigchld_blocked := false } := (Beside.refl s).grown.same rfl rfl rfl rfl rfl
  split at hhandle
  · next hin =>
    split at hhandle
    · next hlisten =>
      obtain ⟨t, hloop, hdone⟩ := bind_eq_ok_iff.mp hhandle
      cases hdone
      obtain ⟨h₁, h₂, h₃, h₄, h₅, h₆⟩ := grown_accept_loop hloop
      exact .grown herr (by simp [ends_child, hlisten]) ⟨h₁, h₂, h₃, h₄, h₅, h₆⟩
    · next hlisten =>
      obtain ⟨t, hloop, hdone⟩ := bind_eq_ok_iff.mp hhandle
      cases hdone
      have hread := read_loop_eq hloop
      have hends : ends_child s evt answers = reads_end answers.reads := by simp [ends_child, herr, hin, hlisten]
      cases hreads : reads_end answers.reads with
      | true =>
        rw [if_pos hreads] at hread
        subst hread
        exact .ended herr (hends.trans hreads) rfl
      | false =>
        rw [hreads, if_neg Bool.false_ne_true] at hread
        subst hread
        exact .grown herr (hends.trans hreads) hunchanged
  · next hin =>
    split at hhandle
    · next hhup =>
      cases hhandle
      refine .ended herr (by simp [ends_child, herr, hin, hhup.1, hhup.2]) ?_
      rw [hung_up_eq]
    · next hhup =>
      cases hhandle
      refine .grown herr ?_ hunchanged
      rw [Bool.not_eq_true] at hin
      by_cases hlisten : evt.fd = s.listen_fd
      · simp [ends_child, hlisten]
      · have hnot : evt.epollhup = false := by
          rw [Bool.eq_false_iff]
          exact fun htrue => hhup ⟨htrue, hlisten⟩
        simp [ends_child, hin, hnot]

theorem exit_child_frame (s : Server) (fd : Int) :
    (exit_child_with_sockfd s fd).epoll_evts = s.epoll_evts ∧
      (exit_child_with_sockfd s fd).listen_fd = s.listen_fd := by
  unfold exit_child_with_sockfd
  cases hfind : get_idx_with_sockfd s fd with
  | none =>
    have hclosed := close_fd_closed s fd
    exact ⟨hclosed.events, hclosed.listen_fd⟩
  | some i =>
    obtain ⟨_, client, hclient, _⟩ := find_client_eq_some hfind
    obtain ⟨t, hslot, hclean⟩ := clean_client_spec hclient
    have hclosed := close_fd_closed (clean_client_with_idx s i) fd
    dsimp only
    rw [hclosed.events, hclosed.listen_fd, hclean]
    exact ⟨hslot.events, hslot.listen_fd⟩

theorem Handled.frame {evt : Event} {answers : Answers} (hhandled : Handled s evt answers s') :
    s'.epoll_evts = s.epoll_evts ∧ s'.listen_fd = s.listen_fd := by
  cases hhandled with
  | error _ _ hclosed =>
    subst hclosed
    have hclosed := close_fd_closed { s with sigchld_blocked := true } evt.fd
    exact ⟨hclosed.events, hclosed.listen_fd⟩
  | ended _ _ hclosed =>
    subst hclosed
    exact exit_child_frame { s with sigchld_blocked := true } evt.fd
  | grown _ _ hgrown => exact ⟨hgrown.events, hgrown.listen_fd⟩

/-- A step takes what `epoll_wait` reports, or handles the next event of it. -/
theorem step_cases {command : Command} {u : Unit} (hstep : step s command = .ok (s', u)) :
    (∃ events, command = .epoll_wait events ∧ s.epoll_evts = [] ∧ (∀ evt ∈ events, evt.fd ∈ s.watched) ∧
      (events.map Event.fd).Nodup ∧ s' = { s with epoll_evts := events }) ∨
    ∃ evt evts answers, command = .event answers ∧ s.epoll_evts = evt :: evts ∧
      Handled { s with epoll_evts := evts } evt answers s' := by
  obtain hwait | ⟨evt, evts, answers, hcommand, hevts, hhandle⟩ := step_inv hstep
  · exact Or.inl hwait
  · exact Or.inr ⟨evt, evts, answers, hcommand, hevts, handle_event_handled hhandle⟩

/-- One event is taken from the list. -/
theorem event_frame {answers : Answers} {u : Unit} (hstep : step s (.event answers) = .ok (s', u)) :
    ∃ evt, s.epoll_evts = evt :: s'.epoll_evts ∧ s'.listen_fd = s.listen_fd := by
  rcases step_cases hstep with ⟨_, hcommand, _⟩ | ⟨evt, evts, _, _, hevts, hhandled⟩
  · cases hcommand
  · obtain ⟨hrest, hlisten⟩ := hhandled.frame
    exact ⟨evt, by rw [hevts, hrest], hlisten⟩

theorem epoll_wait_frame {events : List Event} {u : Unit} (hstep : step s (.epoll_wait events) = .ok (s', u)) :
    s.epoll_evts = [] ∧ (events.map Event.fd).Nodup ∧ s' = { s with epoll_evts := events } := by
  rcases step_cases hstep with ⟨_, hcommand, hnone, _, hnodup, hreported⟩ | ⟨_, _, _, hcommand, _⟩
  · cases hcommand
    exact ⟨hnone, hnodup, hreported⟩
  · cases hcommand

/-! ## Runs -/

/-- The parent's own descriptors: what epoll may report is open, and is one of them. -/
structure Owning (s : Server) : Prop where
  listener : s.files.get? s.listen_fd = some .listener
  watched : ∀ k ∈ s.watched, k = s.listen_fd ∨ ∃ pipe, s.files.get? k = some (.pipe_r pipe)
  pending : ∀ evt ∈ s.epoll_evts, evt.fd ∈ s.watched
  nodup : (s.epoll_evts.map Event.fd).Nodup
  rightful : Rightful s

theorem Owning.open_of_watched (howning : Owning s) {k : Nat} (hk : k ∈ s.watched) : (s.files.get? k).isSome := by
  rcases howning.watched k hk with rfl | ⟨pipe, hpipe⟩
  · rw [howning.listener]
    rfl
  · rw [hpipe]
    rfl

theorem Owning.grow (howning : Owning s) (hgrown : Grown s s') : Owning s' := by
  have hkept : ∀ {k file}, s.files.get? k = some file → s'.files.get? k = some file := by
    intro k file hopen
    rw [hgrown.kept k (by rw [hopen]; rfl), hopen]
  refine ⟨?_, ?_, ?_, ?_, ?_⟩
  · rw [hgrown.listen_fd]
    exact hkept howning.listener
  · intro k hk
    rcases hgrown.watched k hk with hold | hpipe
    · rw [hgrown.listen_fd]
      exact (howning.watched k hold).imp_right fun ⟨pipe, hpipe⟩ => ⟨pipe, hkept hpipe⟩
    · exact Or.inr hpipe
  · intro evt hevt
    rw [hgrown.events] at hevt
    have hold := howning.pending evt hevt
    exact hgrown.still evt.fd hold (howning.open_of_watched hold)
  · rw [hgrown.events]
    exact howning.nodup
  · obtain ⟨made, hcloses, hmade⟩ := hgrown.closes
    intro entry hentry
    rw [hcloses] at hentry
    exact (List.mem_append.mp hentry).elim (howning.rightful entry) (hmade entry)

/-- The reading end of a pipe is closed once when no slot knows it. -/
theorem Owning.close_pipe {fd : Nat} (howning : Owning s) (hwatched : fd ∈ s.watched) (hfd : fd ≠ s.listen_fd)
    (hevents : ∀ evt ∈ s.epoll_evts, evt.fd ≠ fd) : Owning (close_fd s fd) := by
  have hclosed := close_fd_closed s fd
  obtain ⟨pipe, hpipe⟩ := (howning.watched fd hwatched).resolve_left hfd
  have hkept : ∀ {k : Nat}, k ≠ fd → (close_fd s fd).files.get? k = s.files.get? k :=
    fun hk => hclosed.kept _ (by omega)
  refine ⟨?_, ?_, ?_, ?_, ?_⟩
  · rw [hclosed.listen_fd, hkept (Ne.symm hfd)]
    exact howning.listener
  · intro k hk
    obtain ⟨hold, hgone⟩ := (hclosed.watched k).mp hk
    rw [hclosed.listen_fd, hkept (by omega)]
    exact howning.watched k hold
  · intro evt hevt
    rw [hclosed.events] at hevt
    have hne := hevents evt hevt
    exact (hclosed.watched evt.fd).mpr ⟨howning.pending evt hevt, by omega⟩
  · rw [hclosed.events]
    exact howning.nodup
  · intro entry hentry
    rw [close_fd_closes] at hentry
    rcases List.mem_append.mp hentry with hentry | hentry
    · exact howning.rightful entry hentry
    · obtain rfl := List.mem_singleton.mp hentry
      exact ⟨.pipe_r pipe, hpipe, rfl⟩

theorem Owning.same (howning : Owning s) (hlisten : s'.listen_fd = s.listen_fd)
    (hevents : s'.epoll_evts = s.epoll_evts) (hfiles : s'.files = s.files) (hwatched : s'.watched = s.watched)
    (hcloses : s'.closes = s.closes) : Owning s' :=
  howning.grow ((Beside.refl s).grown.same hlisten hevents hfiles hwatched hcloses)

theorem Owning.handle {evt : Event} {answers : Answers} (howning : Owning s) (hwatched : evt.fd ∈ s.watched)
    (hevents : ∀ other ∈ s.epoll_evts, other.fd ≠ evt.fd) (hharmless : Harmless s evt answers)
    (hhandled : Handled s evt answers s') : Owning s' := by
  obtain ⟨hlisten, hfind⟩ := hharmless
  have hblocked : Owning { s with sigchld_blocked := true } := howning.same rfl rfl rfl rfl rfl
  cases hhandled with
  | error herr hends hclosed =>
    subst hclosed
    exact hblocked.close_pipe hwatched (hlisten herr) hevents
  | ended herr hends hclosed =>
    have hfd : evt.fd ≠ s.listen_fd := by
      intro heq
      simp [ends_child, heq] at hends
    have hnone : get_idx_with_sockfd { s with sigchld_blocked := true } evt.fd = none := hfind hends
    subst hclosed
    unfold exit_child_with_sockfd
    rw [hnone]
    exact (hblocked.close_pipe hwatched hfd hevents).same rfl rfl rfl rfl rfl
  | grown herr hends hgrown => exact howning.grow hgrown

/-- Otherwise the listening socket is closed, or a descriptor that was closed before. -/
theorem not_rightful_of_handled {evt : Event} {answers : Answers}
    (hlistener : s.files.get? s.listen_fd = some .listener) (hharmless : ¬Harmless s evt answers)
    (hhandled : Handled s evt answers s') : ¬Rightful s' := by
  intro hrightful
  apply hharmless
  cases hhandled with
  | error herr hends hclosed =>
    subst hclosed
    refine ⟨fun _ heq => ?_, fun hends' => absurd (hends.symm.trans hends') Bool.false_ne_true⟩
    obtain ⟨file, hfile, hopened⟩ := hrightful (evt.fd, s.files.get? evt.fd) (by
      rw [close_fd_closes]
      exact List.mem_append_right _ List.mem_cons_self)
    dsimp only at hfile
    rw [heq, hlistener] at hfile
    cases hfile
    cases hopened
  | ended herr hends hclosed =>
    subst hclosed
    refine ⟨fun herr' => absurd (herr.symm.trans herr') Bool.false_ne_true, fun _ => ?_⟩
    by_contra hfind
    have hagain := @exit_child_again { s with sigchld_blocked := true } evt.fd hfind
    obtain ⟨file, hfile, _⟩ := hrightful (evt.fd, none) hagain
    cases hfile
  | grown herr hends _ =>
    exact ⟨fun herr' => absurd (herr.symm.trans herr') Bool.false_ne_true,
      fun hends' => absurd (hends.symm.trans hends') Bool.false_ne_true⟩

theorem Handled.logs {evt : Event} {answers : Answers} (hhandled : Handled s evt answers s') :
    s.closes <+: s'.closes := by
  cases hhandled with
  | error _ _ hclosed =>
    subst hclosed
    exact close_fd_logs { s with sigchld_blocked := true } _
  | ended _ _ hclosed =>
    subst hclosed
    exact exit_child_logs { s with sigchld_blocked := true } _
  | grown _ _ hgrown =>
    obtain ⟨made, hcloses, _⟩ := hgrown.closes
    rw [hcloses]
    exact List.prefix_append _ _

/-- The condition on a step: `Harmless` for the event that it handles. -/
def Careful (s : Server) : Command → Prop
  | .epoll_wait _ => True
  | .event answers => ∀ evt ∈ s.epoll_evts.head?, Harmless s evt answers

instance (s : Server) : ∀ command, Decidable (Careful s command)
  | .epoll_wait _ => inferInstanceAs (Decidable True)
  | .event answers => inferInstanceAs (Decidable (∀ evt ∈ s.epoll_evts.head?, Harmless s evt answers))

theorem step_owning {command : Command} {u : Unit} (howning : Owning s) (hcareful : Careful s command)
    (hstep : step s command = .ok (s', u)) : Owning s' := by
  rcases step_cases hstep with ⟨events, rfl, _, hreported, hnodup, rfl⟩ | ⟨evt, evts, answers, rfl, hevts, hhandled⟩
  · exact ⟨howning.listener, howning.watched, hreported, hnodup, howning.rightful⟩
  · have hnodup := howning.nodup
    rw [hevts, List.map_cons, List.nodup_cons] at hnodup
    have hpending := howning.pending
    rw [hevts] at hpending
    have hrest : Owning { s with epoll_evts := evts } :=
      ⟨howning.listener, howning.watched, fun other hother => hpending other (List.mem_cons_of_mem evt hother),
        hnodup.2, howning.rightful⟩
    have hharmless : Harmless { s with epoll_evts := evts } evt answers :=
      hcareful evt (by rw [hevts, List.head?_cons, Option.mem_some_iff])
    refine hrest.handle (hpending evt List.mem_cons_self) ?_ hharmless hhandled
    intro other hother heq
    exact hnodup.1 (heq ▸ List.mem_map_of_mem hother)

theorem not_rightful_of_step {command : Command} {u : Unit} (howning : Owning s) (hcareful : ¬Careful s command)
    (hstep : step s command = .ok (s', u)) : ¬Rightful s' := by
  rcases step_cases hstep with ⟨events, rfl, _⟩ | ⟨evt, evts, answers, rfl, hevts, hhandled⟩
  · exact absurd trivial hcareful
  · refine not_rightful_of_handled (s := { s with epoll_evts := evts }) howning.listener ?_ hhandled
    intro hharmless
    apply hcareful
    intro other hother
    rw [hevts, List.head?_cons, Option.mem_some_iff] at hother
    subst hother
    exact hharmless

theorem step_logs {command : Command} {u : Unit} (hstep : step s command = .ok (s', u)) :
    s.closes <+: s'.closes := by
  rcases step_cases hstep with ⟨events, _, _, _, _, rfl⟩ | ⟨evt, evts, answers, _, _, hhandled⟩
  · exact List.prefix_rfl
  · exact hhandled.logs

theorem Owning.rightful_iff {commands : List Command} {outputs : List Unit} (howning : Owning s)
    (hrun : run step s commands = .ok (s', outputs)) : Rightful s' ↔ Guarded step Careful s commands := by
  obtain ⟨hcareful, hcareless⟩ := run_splits (G := Careful) Owning (fun s => ¬Rightful s)
    (fun _ _ _ _ howning hcareful hstep => step_owning howning hcareful hstep)
    (fun _ _ _ _ howning hcareful hstep => not_rightful_of_step howning hcareful hstep)
    (fun _ _ _ _ hnot hstep hrightful =>
      hnot fun entry hentry => hrightful entry ((step_logs hstep).subset hentry))
    howning hrun
  exact ⟨fun hrightful => by_contra fun hnot => hcareless hnot hrightful, fun hguarded => (hcareful hguarded).rightful⟩

theorem start_owning {max_connect : Nat} {files : Table File} {listen_fd : Nat}
    (hlisten : files.get? listen_fd = some .listener) : Owning (start max_connect files listen_fd) :=
  ⟨hlisten, fun _ hk => Or.inl (List.mem_singleton.mp hk), nofun, List.nodup_nil, nofun⟩

/-- Every descriptor that the parent closed was open and its own exactly when no
    child ended whose slot was known and no error came for the listening socket. -/
theorem rightful_iff_careful {max_connect : Nat} {files : Table File} {listen_fd : Nat}
    (hlisten : files.get? listen_fd = some .listener) {commands : List Command} {s : Server} {outputs : List Unit}
    (hrun : run step (start max_connect files listen_fd) commands = .ok (s, outputs)) :
    Rightful s ↔ Guarded step Careful (start max_connect files listen_fd) commands :=
  (start_owning hlisten).rightful_iff hrun

theorem rightful_iff_careful_one :
    ∃ s outputs, run step (start 1 initial_files 3) (one_connection (.forked 100 true)) = .ok (s, outputs) ∧
      s.closes.length = 3 ∧ Rightful s := by
  obtain ⟨s, outputs, hrun, hcloses⟩ := run_of_view (fun s : Server => s.closes.length)
    (by decide +kernel : (run step (start 1 initial_files 3) (one_connection (.forked 100 true))).toOption.map
      (fun r => r.1.closes.length) = some 3)
  exact ⟨s, outputs, hrun, hcloses, (rightful_iff_careful (by decide) hrun).mpr (by decide +kernel)⟩

/-- When the child of a slot ends, the slot's descriptors are closed and the one
    to read from once more; nothing is open there. -/
theorem slot_closed_twice :
    ∃ s outputs, run step (start 1 initial_files 3) one_child = .ok (s, outputs) ∧
      (8, none) ∈ s.closes ∧ ¬Rightful s := by
  obtain ⟨s, outputs, hrun, hcloses⟩ := run_of_view (fun s : Server => decide ((8, none) ∈ s.closes))
    (by decide +kernel : (run step (start 1 initial_files 3) one_child).toOption.map
      (fun r => decide ((8, none) ∈ r.1.closes)) = some true)
  have hmem := of_decide_eq_true hcloses
  refine ⟨s, outputs, hrun, hmem, fun hrightful => ?_⟩
  obtain ⟨file, hfile, _⟩ := hrightful _ hmem
  cases hfile

end code_tools.server_epoll.server
