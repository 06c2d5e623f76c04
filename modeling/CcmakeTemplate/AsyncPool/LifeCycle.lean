import CcmakeTemplate.AsyncPool.Steps
import CcmakeTemplate.Concurrency.Threads

/-!
# Who owns the pool and who builds or destroys it

The pool is alive as long as somebody has a `shared_ptr` to it. The thread that gives up the
last one becomes the only one in the destructor, and from then on no message is posted but
the destructor's own.
-/

namespace AsyncPool

open Concurrency BlockingQueue

variable {L S M : Type}

/-- The client has a `shared_ptr` to the pool. -/
def ClientPc.owns : ClientPc L M → Bool
  | .post _ | .release => true
  | _ => false

/-- The client is in the constructor or in the destructor. -/
def ClientPc.manages : ClientPc L M → Bool
  | .construct | .destroyPost _ _ | .destroyJoin _ => true
  | _ => false

/-- Somebody is in the constructor or in the destructor. -/
def Phase.managed : Phase → Bool
  | .constructing | .destroying => true
  | _ => false

/-- What the program point of a client says about the pool. -/
def ClientPc.Fits (phase : Phase) (threads_ : ℕ) : ClientPc L M → Prop
  | .out | .release => True
  | .construct => phase = .constructing
  | .post pc => ∃ (request : Request L M) (policy : AsyncOverflowPolicy),
      pc.Of (policy.op request.msg)
  | .destroyPost i none => phase = .destroying ∧ i ≤ threads_
  | .destroyPost i (some pc) => phase = .destroying ∧ i < threads_ ∧ pc.Of (.enqueue .terminate)
  | .destroyJoin i => phase = .destroying ∧ i ≤ threads_

theorem ClientPc.Fits.elsewhere {phase phase' : Phase} {threads_ threads_' : ℕ}
    {pc : ClientPc L M} (h : pc.Fits phase threads_) (hpc : pc.manages = false) :
    pc.Fits phase' threads_' := by
  cases pc with
  | out | release => trivial
  | post pc => exact h
  | construct | destroyPost | destroyJoin => cases hpc

structure Life (threads_n : ℕ) (s : State L S M) : Prop where
  owns : ∀ c, .client c ∈ s.owners ↔ (s.clientPc c).owns = true
  nodup : s.owners.Nodup
  alive : s.owners ≠ [] ↔ s.phase = .alive
  manager : ∃ m : Mutex ℕ, (m.Exact fun c => (s.clientPc c).manages) ∧
    (m ≠ none ↔ s.phase.managed = true)
  fits : ∀ c, (s.clientPc c).Fits s.phase s.threads_
  hired : s.phase ≠ .constructing → s.phase ≠ .failed → s.threads_ = threads_n ∧ threads_n ≠ 0
  few : s.threads_ ≤ threads_n

section

variable {b : Backend L S M} {threads_n : ℕ} {s s' : State L S M} {c : ℕ} {pc : ClientPc L M}

theorem Life.congr (hs : Life threads_n s) (howners : s'.owners = s.owners)
    (hpcs : s'.clientPc = s.clientPc) (hphase : s'.phase = s.phase)
    (hthreads : s'.threads_ = s.threads_) : Life threads_n s' where
  owns := by
    rw [howners, hpcs]
    exact hs.owns
  nodup := howners ▸ hs.nodup
  alive := by
    rw [howners, hphase]
    exact hs.alive
  manager := by
    rw [hpcs, hphase]
    exact hs.manager
  fits := by
    rw [hpcs, hphase, hthreads]
    exact hs.fits
  hired := by
    rw [hphase, hthreads]
    exact hs.hired
  few := hthreads ▸ hs.few

theorem goClient_self (s : State L S M) (c : ℕ) (pc : ClientPc L M) :
    (s.goClient c pc).clientPc c = pc := Function.update_self ..

theorem goClient_of_ne (s : State L S M) (pc : ClientPc L M) {d : ℕ} (hdc : d ≠ c) :
    (s.goClient c pc).clientPc d = s.clientPc d := Function.update_of_ne hdc ..

/-- Nobody else is in the constructor or in the destructor. -/
theorem Life.alone (hs : Life threads_n s) (hpc : (s.clientPc c).manages = true) {d : ℕ}
    (hdc : d ≠ c) : (s.clientPc d).manages = false := by
  obtain ⟨m, hexact, -⟩ := hs.manager
  exact Bool.eq_false_iff.mpr fun hd => hdc (hexact.unique hd hpc)

theorem Life.nobody (hs : Life threads_n s) (hphase : s.phase.managed = false) (d : ℕ) :
    (s.clientPc d).manages = false := by
  obtain ⟨m, hexact, hm⟩ := hs.manager
  refine Bool.eq_false_iff.mpr fun hd => ?_
  have hsome : m ≠ none := by
    rw [(hexact d).mpr hd]
    exact Option.some_ne_none d
  simp [hm.mp hsome] at hphase

theorem Life.managed (hs : Life threads_n s) (hpc : (s.clientPc c).manages = true) :
    s.phase.managed = true := by
  by_contra hphase
  simp [hs.nobody (Bool.eq_false_iff.mpr hphase) c] at hpc

/-- The pool belongs to nobody while somebody is in the constructor or in the destructor. -/
theorem Life.unowned (hs : Life threads_n s) (hphase : s.phase.managed = true) :
    s.owners = [] := by
  by_contra hne
  rw [hs.alive.mp hne] at hphase
  cases hphase

theorem Life.posting (hs : Life threads_n s) (hpc : (s.clientPc c).owns = true) :
    s.phase = .alive :=
  hs.alive.mp (List.ne_nil_of_mem ((hs.owns c).mpr hpc))

/-! ## One step -/

/-- Another program point, with what the client has and does staying the same. -/
theorem Life.go (hs : Life threads_n s) (pc : ClientPc L M) (howns : pc.owns = (s.clientPc c).owns)
    (hmanages : pc.manages = (s.clientPc c).manages) (hfits : pc.Fits s.phase s.threads_) :
    Life threads_n (s.goClient c pc) where
  owns := by
    intro d
    by_cases hdc : d = c
    · subst hdc
      rw [goClient_self, howns]
      exact hs.owns d
    · rw [goClient_of_ne s pc hdc]
      exact hs.owns d
  nodup := hs.nodup
  alive := hs.alive
  manager := by
    obtain ⟨m, hexact, hm⟩ := hs.manager
    refine ⟨m, hexact.step (t := c) (.keep rfl ?_) ?_ ?_, hm⟩
    · rw [goClient_self, hmanages]
    · intro hfree htake
      cases hfree.symm.trans htake
    · intro d hdc
      rw [goClient_of_ne s pc hdc]
  fits := forall_update hs.fits hfits
  hired := hs.hired
  few := hs.few

/-- The constructor or the destructor returns. -/
theorem Life.settle (hs : Life threads_n s) (hpc : (s.clientPc c).manages = true)
    (phase : Phase) (owners : List Owner) (hphase : phase.managed = false)
    (howners : ∀ d, .client d ∉ owners) (hnodup : owners.Nodup)
    (halive : owners ≠ [] ↔ phase = .alive)
    (hhired : phase ≠ .failed → s.threads_ = threads_n ∧ threads_n ≠ 0) :
    Life threads_n ({ s with phase := phase, owners := owners }.goClient c .out) where
  owns := by
    intro d
    refine ⟨fun hmem => absurd hmem (howners d), fun hd => ?_⟩
    have howns : (s.clientPc d).owns = true := by
      by_cases hdc : d = c
      · subst hdc
        rw [goClient_self] at hd
        cases hd
      · rwa [goClient_of_ne _ _ hdc] at hd
    have hmem := (hs.owns d).mpr howns
    rw [hs.unowned (hs.managed hpc)] at hmem
    cases hmem
  nodup := hnodup
  alive := halive
  manager := by
    obtain ⟨m, hexact, hm⟩ := hs.manager
    refine ⟨none, hexact.step (t := c) (.release hpc ?_ rfl) ?_ ?_, by simp [hphase]⟩
    · rw [goClient_self]
      rfl
    · intro _ htake
      cases htake
    · intro d hdc
      rw [goClient_of_ne _ _ hdc]
  fits := by
    intro d
    by_cases hdc : d = c
    · subst hdc
      rw [goClient_self]
      trivial
    · rw [goClient_of_ne _ _ hdc]
      exact (hs.fits d).elsewhere (hs.alone hpc hdc)
  hired := fun _ hfailed => hhired hfailed
  few := hs.few

theorem Life.hire (hs : Life threads_n s) (hpc : s.clientPc c = .construct)
    (hlt : s.threads_ < threads_n) :
    Life threads_n ({ s with threads_ := s.threads_ + 1 }.goWorker s.threads_
      (.loop (.dequeueLock false))) where
  owns := hs.owns
  nodup := hs.nodup
  alive := hs.alive
  manager := hs.manager
  fits := by
    intro d
    by_cases hdc : d = c
    · subst hdc
      have hfits := hs.fits d
      change (s.clientPc d).Fits s.phase (s.threads_ + 1)
      rw [hpc] at hfits ⊢
      exact hfits
    · refine (hs.fits d).elsewhere (hs.alone (c := c) ?_ hdc)
      rw [hpc]
      rfl
  hired := by
    intro hphase
    have hfits := hs.fits c
    rw [hpc] at hfits
    exact absurd hfits hphase
  few := hlt

theorem Life.post (hs : Life threads_n s) (hpc : s.clientPc c = .out) (hlive : s.owners ≠ [])
    (request : Request L M) (policy : AsyncOverflowPolicy) :
    Life threads_n ({ s with owners := .client c :: s.owners }.goClient c
      (.post (policy.op request.msg).entry)) where
  owns := by
    intro d
    by_cases hdc : d = c
    · subst hdc
      rw [goClient_self]
      exact iff_of_true List.mem_cons_self rfl
    · rw [goClient_of_ne _ _ hdc, ← hs.owns d]
      simp [hdc]
  nodup := by
    refine List.nodup_cons.mpr ⟨fun hmem => ?_, hs.nodup⟩
    have howns := (hs.owns c).mp hmem
    rw [hpc] at howns
    cases howns
  alive := by simp [hs.alive.mp hlive]
  manager := by
    obtain ⟨m, hexact, hm⟩ := hs.manager
    refine ⟨m, hexact.step (t := c) (.keep rfl ?_) ?_ ?_, hm⟩
    · rw [goClient_self, hpc]
      rfl
    · intro hfree htake
      cases hfree.symm.trans htake
    · intro d hdc
      rw [goClient_of_ne _ _ hdc]
  fits := forall_update hs.fits ⟨request, policy, Op.entry_of _⟩
  hired := hs.hired
  few := hs.few

/-- A `shared_ptr` goes away: `c` is either the owner itself or has none. -/
theorem Life.drop (hs : Life threads_n s) {owner : Owner} (howner : owner ∈ s.owners)
    (hpc : (s.clientPc c).manages = false)
    (hc : owner = .client c ∨ owner = .registry ∧ (s.clientPc c).owns = false) :
    Life threads_n (s.drop owner c) := by
  have halive : s.phase = .alive := hs.alive.mp (List.ne_nil_of_mem howner)
  have howns : ∀ d, .client d ∈ s.owners.erase owner ↔
      d ≠ c ∧ (s.clientPc d).owns = true := by
    intro d
    rw [hs.nodup.mem_erase_iff, hs.owns d]
    refine and_congr_left fun hd => ?_
    rcases hc with rfl | ⟨rfl, hnot⟩
    · simp
    · refine iff_of_true (by simp) ?_
      rintro rfl
      simp [hd] at hnot
  have hhired : s.threads_ = threads_n ∧ threads_n ≠ 0 :=
    hs.hired (by simp [halive]) (by simp [halive])
  unfold State.drop
  split
  · rename_i hlast
    rw [hlast] at howns
    exact {
      owns := by
        intro d
        by_cases hdc : d = c
        · subst hdc
          rw [goClient_self]
          simp [ClientPc.owns]
        · rw [goClient_of_ne _ _ hdc, howns d]
          exact ⟨fun h => h.2, fun h => ⟨hdc, h⟩⟩
      nodup := List.nodup_nil
      alive := by simp
      manager := by
        obtain ⟨m, hexact, hm⟩ := hs.manager
        have hfree : m = none := by
          by_contra hne
          have := hm.mp hne
          rw [halive] at this
          cases this
        refine ⟨some c, hexact.step (t := c) (.take hfree rfl) ?_ ?_, by simp [Phase.managed]⟩
        · intro _ _
          rw [goClient_self]
          rfl
        · intro d hdc
          rw [goClient_of_ne _ _ hdc]
      fits := by
        intro d
        by_cases hdc : d = c
        · subst hdc
          rw [goClient_self]
          exact ⟨rfl, Nat.zero_le _⟩
        · rw [goClient_of_ne _ _ hdc]
          exact (hs.fits d).elsewhere (hs.nobody (by rw [halive]; rfl) d)
      hired := fun _ _ => hhired
      few := hs.few }
  · rename_i hmore
    exact {
      owns := by
        intro d
        by_cases hdc : d = c
        · subst hdc
          rw [goClient_self]
          exact iff_of_false (fun hmem => ((howns d).mp hmem).1 rfl) (by simp [ClientPc.owns])
        · rw [goClient_of_ne _ _ hdc]
          exact (howns d).trans ⟨fun h => h.2, fun h => ⟨hdc, h⟩⟩
      nodup := hs.nodup.erase owner
      alive := iff_of_true hmore halive
      manager := by
        obtain ⟨m, hexact, hm⟩ := hs.manager
        refine ⟨m, hexact.step (t := c) (.keep rfl ?_) ?_ ?_, hm⟩
        · rw [goClient_self, hpc]
          rfl
        · intro hfree htake
          cases hfree.symm.trans htake
        · intro d hdc
          rw [goClient_of_ne _ _ hdc]
      fits := forall_update hs.fits trivial
      hired := fun _ _ => hhired
      few := hs.few }

theorem Life.client (hs : Life threads_n s) (h : ClientStep threads_n c s s') :
    Life threads_n s' := by
  have hfits := hs.fits c
  cases h with
  | fails hpc hn =>
      have hmanages : (s.clientPc c).manages = true := by rw [hpc]; rfl
      have hnil := hs.unowned (hs.managed hmanages)
      refine (hs.settle hmanages .failed [] rfl (by simp)
        List.nodup_nil (by simp) (by simp)).congr hnil rfl rfl rfl
  | hire hpc hlt => exact hs.hire hpc hlt
  | built hpc hn hge =>
      refine hs.settle (by rw [hpc]; rfl) .alive [.registry] rfl (by simp)
        (List.nodup_singleton _) (by simp) ?_
      have heq := Nat.le_antisymm hs.few hge
      exact fun _ => ⟨heq, heq ▸ hn⟩
  | @postMove pc pc' wake q hpc h =>
      rw [hpc] at hfits
      obtain ⟨request, policy, hof⟩ := hfits
      refine (hs.go (c := c) (.post pc') (by rw [hpc]; rfl) (by rw [hpc]; rfl)
        ⟨request, policy, ?_⟩).congr rfl rfl rfl rfl
      exact (queueStep_cases h).of hof pc' rfl
  | posted hpc h =>
      exact (hs.go (c := c) .release (by rw [hpc]; rfl) (by rw [hpc]; rfl)
        trivial).congr rfl rfl rfl rfl
  | release hpc =>
      refine hs.drop ((hs.owns c).mpr (by rw [hpc]; rfl)) (by rw [hpc]; rfl) (.inl rfl)
  | @terminate i hpc hlt =>
      rw [hpc] at hfits
      exact hs.go _ (by rw [hpc]; rfl) (by rw [hpc]; rfl) ⟨hfits.1, hlt, rfl⟩
  | terminated hpc hge =>
      rw [hpc] at hfits
      exact hs.go _ (by rw [hpc]; rfl) (by rw [hpc]; rfl) ⟨hfits.1, Nat.zero_le _⟩
  | @destroyMove i pc pc' wake q hpc h =>
      rw [hpc] at hfits
      refine (hs.go (c := c) (.destroyPost i (some pc')) (by rw [hpc]; rfl)
        (by rw [hpc]; rfl) ⟨hfits.1, hfits.2.1, ?_⟩).congr rfl rfl rfl rfl
      exact (queueStep_cases h).of hfits.2.2 pc' rfl
  | @destroySent i pc wake q answer hpc h =>
      rw [hpc] at hfits
      exact (hs.go (c := c) (.destroyPost (i + 1) none) (by rw [hpc]; rfl)
        (by rw [hpc]; rfl) ⟨hfits.1, hfits.2.1⟩).congr rfl rfl rfl rfl
  | join hpc hlt hended =>
      rw [hpc] at hfits
      exact hs.go _ (by rw [hpc]; rfl) (by rw [hpc]; rfl) ⟨hfits.1, hlt⟩
  | joined hpc hge =>
      rw [hpc] at hfits
      have hmanages : (s.clientPc c).manages = true := by rw [hpc]; rfl
      have hnil := hs.unowned (hs.managed hmanages)
      refine (hs.settle hmanages .destroyed [] rfl (by simp)
        List.nodup_nil (by simp) fun _ => ?_).congr hnil rfl rfl rfl
      exact hs.hired (by simp [hfits.1]) (by simp [hfits.1])

theorem Life.step {a : Action L M} (hs : Life threads_n s) (h : Step b threads_n s a s') :
    Life threads_n s' := by
  cases h with
  | worker h =>
      obtain ⟨-, hthreads, hpcs, hphase, howners, -⟩ := h.moves
      exact hs.congr howners hpcs hphase hthreads
  | client h => exact hs.client h
  | refused | spurious => exact hs.congr rfl rfl rfl rfl
  | post request policy hpc hlive => exact hs.post hpc hlive request policy
  | @reset c hpc howner =>
      refine hs.drop howner (by rw [hpc]; rfl) (.inr ⟨rfl, by rw [hpc]; rfl⟩)

theorem initial_clientPc (q_max_items c : ℕ) :
    (State.initial q_max_items : State L S M).clientPc c =
      if c = 0 then .construct else .out := by
  by_cases hc : c = 0
  · subst hc
    rfl
  · rw [if_neg hc]
    exact Function.update_of_ne (f := fun _ => ClientPc.out) hc _

theorem Life.initial (q_max_items : ℕ) :
    Life threads_n (State.initial q_max_items : State L S M) := by
  have hpc := initial_clientPc (L := L) (S := S) (M := M) q_max_items
  exact {
    owns := by
      intro c
      rw [hpc c]
      split <;> simp [State.initial, ClientPc.owns]
    nodup := List.nodup_nil
    alive := by simp [State.initial]
    manager := by
      refine ⟨some 0, fun c => ?_, by simp [State.initial, Phase.managed]⟩
      change some 0 = some c ↔ ((State.initial q_max_items : State L S M).clientPc c).manages = true
      rw [hpc c, Option.some_inj]
      split
      · rename_i hc
        exact iff_of_true hc.symm rfl
      · rename_i hc
        exact iff_of_false (Ne.symm hc) Bool.false_ne_true
    fits := by
      intro c
      rw [hpc c]
      split <;> trivial
    hired := by simp [State.initial]
    few := Nat.zero_le _ }

theorem Life.of_reach {q_max_items : ℕ} {G : State L S M → Action L M → Prop}
    (h : (machine b q_max_items threads_n).ReachBy G s) : Life threads_n s := by
  refine h.invariant (P := Life threads_n) ?_ ?_
  · rintro s rfl
    exact .initial q_max_items
  · exact fun s a s' _ hs _ hst => hs.step (step_cases hst)

/-! ## The workers -/

/-- A worker that is in the queue is in `dequeue`. -/
def Dequeueing (s : State L S M) : Prop := ∀ i pc, s.workerPc i = .loop pc → pc.Of .dequeue

theorem Dequeueing.go (hs : Dequeueing s) {i : ℕ} {pc : WorkerPc L S M}
    (hpc : ∀ pc', pc = .loop pc' → pc'.Of .dequeue) : Dequeueing (s.goWorker i pc) :=
  forall_update (P := fun _ pc => ∀ pc', pc = WorkerPc.loop pc' → pc'.Of .dequeue) hs hpc

theorem Dequeueing.of_reach {q_max_items : ℕ} {G : State L S M → Action L M → Prop}
    (h : (machine b q_max_items threads_n).ReachBy G s) : Dequeueing s := by
  refine h.invariant (P := Dequeueing) ?_ ?_
  · rintro s rfl i pc hpc
    cases hpc
  · intro s a s' _ hs _ hst
    cases step_cases hst with
    | @worker i _ _ _ h =>
        cases h with
        | @move pc pc' wake q hpc h =>
            refine hs.go (s := s) fun pc'' hpc' => ?_
            cases hpc'
            exact (queueStep_cases h).of (hs _ _ hpc) pc' rfl
        | @takes pc wake q msg hpc h =>
            refine hs.go (s := s) fun pc'' hpc' => ?_
            cases msg <;> cases hpc'
        | visit throws hpc => exact hs.go (s := s) fun pc'' hpc' => by cases hpc'
        | again hpc =>
            refine hs.go (s := s) fun pc'' hpc' => ?_
            cases hpc'
            rfl
    | client h =>
        cases h with
        | hire hpc hlt =>
            refine hs.go (s := s) fun pc'' hpc' => ?_
            cases hpc'
            rfl
        | release hpc =>
            intro i pc hpc'
            rw [(drop_workers s _ _).1] at hpc'
            exact hs i pc hpc'
        | _ => exact hs
    | reset hpc howner =>
        intro i pc hpc'
        rw [(drop_workers s _ _).1] at hpc'
        exact hs i pc hpc'
    | refused | post | spurious => exact hs

end

end AsyncPool
