import CcmakeTemplate.MessageDistribute.Steps
import CcmakeTemplate.Concurrency.Threads
import Mathlib.Data.List.Basic

/-!
# The registry

What `callbackList` is for: an ordered list of callbacks, to which `addUpdateCallback`
appends, from which `removeUpdateCallback` erases the one with the given token, and which
`clear` empties. The critical sections of `listLock`, in their order, are operations on
this registry, and what they find is what the registry has.
-/

namespace MessageDistribute

open Concurrency

open ThreadPool (Thread)

variable {F A : Type}

/-! ## The sequential registry -/

def Section.apply (registry : List (Callback F)) : Section F A → List (Callback F)
  | .add h => registry ++ [h]
  | .remove token true => registry.eraseP (·.token = token)
  | .clear => []
  | .remove _ false | .copy .. | .size _ => registry

def registry (sections : List (Section F A)) : List (Callback F) :=
  sections.foldl Section.apply []

/-- What a section finds in the registry. -/
def Section.Agrees (registry : List (Callback F)) : Section F A → Prop
  | .remove token found => found = true ↔ token ∈ registry.map Callback.token
  | .copy localList _ => localList = registry
  | .size n => n = registry.length
  | .add _ | .clear => True

/-- Every section agrees with the registry that those before it have left. -/
def Legal (sections : List (Section F A)) : Prop :=
  ∀ n (sec : Section F A), sections[n]? = some sec → sec.Agrees (registry (sections.take n))

theorem registry_append (sections : List (Section F A)) (sec : Section F A) :
    registry (sections ++ [sec]) = sec.apply (registry sections) := by
  simp [registry, Section.apply]

theorem Legal.append {sections : List (Section F A)} (h : Legal sections) {sec : Section F A}
    (hsec : sec.Agrees (registry sections)) : Legal (sections ++ [sec]) := by
  intro n sec' hn
  by_cases hlt : n < sections.length
  · rw [List.getElem?_append_left hlt] at hn
    rw [List.take_append_of_le_length hlt.le]
    exact h n sec' hn
  · have hlen : n = sections.length := by
      have hbound := (List.getElem?_eq_some_iff.mp hn).1
      simp only [List.length_append, List.length_singleton] at hbound
      omega
    subst hlen
    rw [List.getElem?_append_right le_rfl, Nat.sub_self] at hn
    cases hn
    rw [List.take_left]
    exact hsec

/-! ## `listLock` -/

def Pc.inside : Pc F A → Bool
  | .holding _ | .unlock .. => true
  | _ => false

abbrev Guarded (s : State F A) : Prop := s.listLock.Guards fun u => (s.pc u).inside

theorem OwnGo.inside {callbackList : List (Callback F)} {pc pc' : Pc F A}
    (h : OwnGo callbackList pc pc') : pc'.inside = pc.inside := by
  cases h <;> rfl

theorem Section.next_inside (n : ℕ) (sec : Section F A) : (sec.next n).inside = false := by
  cases sec <;> rfl

theorem OwnStep.moves {poolSize : ℕ} {u : Thread} {s t : State F A}
    (h : OwnStep poolSize u s t) :
    ∃ pc, t.pc = Function.update s.pc u pc ∧
      Mutex.Handover u s.listLock (s.pc u).inside t.listLock pc.inside := by
  cases h with
  | go h => exact ⟨_, rfl, .keep rfl h.inside⟩
  | lock hpc hfree => exact ⟨_, rfl, .take hfree rfl⟩
  | unlock hpc => exact ⟨_, rfl, .release (by rw [hpc]; rfl) (Section.next_inside _ _) rfl⟩
  | make hpc | record hpc | returns hpc | enqueue hpc =>
      exact ⟨_, rfl, .keep rfl (by rw [hpc]; rfl)⟩

theorem Op.entry_inside (op : Op F A) : op.entry.inside = false := by
  cases op <;> rfl

theorem State.free_out {s : State F A} {u : Thread} (h : s.free u = true) : s.pc u = .out := by
  have hout : (s.pc u).isOut = true := (Bool.and_eq_true_iff.mp h).1
  cases hpc : s.pc u <;> rw [hpc] at hout <;> first | rfl | cases hout

theorem Guarded.of_reach {poolSize : ℕ} {s : State F A} (h : (machine poolSize).Reach s) :
    Guarded s := by
  refine h.invariant (P := Guarded) ?_ ?_
  · rintro s rfl u hu
    cases hu
  · intro s a t _ hs _ hst
    cases step_cases hst with
    | pool => exact hs
    | @start u op hfree =>
        refine Mutex.Guards.step hs (t := u) (.keep rfl ?_) fun v hv hin => ?_
        · rw [State.go_self, State.free_out hfree, op.entry_inside]
          rfl
        · rwa [State.go_other hv] at hin
    | @own u t hcall h =>
        obtain ⟨pc, hpc, hhand⟩ := h.moves
        refine Mutex.Guards.step hs (t := u) ?_ fun v hv hin => ?_
        · rw [hpc, Function.update_self]
          exact hhand
        · rwa [hpc, Function.update_of_ne hv] at hin

/-! ## The list is the registry -/

/-- The search starts at the front and has passed no entry with its token. -/
def Pc.Knows (callbackList : List (Callback F)) : Pc F A → Prop
  | .lock (.search _ it) => it = 0
  | .holding (.search token it) => ∀ c ∈ callbackList.take it, c.token ≠ token
  | _ => True

theorem Records.spec {callbackList left : List (Callback F)} {body : Body F A}
    {sec : Section F A} (h : Records callbackList body left sec)
    (hknows : (Pc.holding body : Pc F A).Knows callbackList) :
    left = sec.apply callbackList ∧ sec.Agrees callbackList := by
  cases h with
  | push | size | clear | copy => exact ⟨rfl, by simp [Section.Agrees]⟩
  | @missing token it hend =>
      refine ⟨rfl, ?_⟩
      have hall : callbackList.take it = callbackList :=
        List.take_of_length_le (List.getElem?_eq_none_iff.mp hend)
      have habsent : token ∉ callbackList.map Callback.token := by
        intro hmem
        obtain ⟨c, hc, heq⟩ := List.mem_map.mp hmem
        exact hknows c (hall.symm ▸ hc) heq
      simp [Section.Agrees, habsent]
  | @found token it c hc heq =>
      obtain ⟨hlt, hget⟩ := List.getElem?_eq_some_iff.mp hc
      constructor
      · have hfirst : callbackList.findIdx? (fun c => decide (c.token = token)) = some it := by
          refine List.findIdx?_eq_some_iff_getElem.mpr ⟨hlt, by simp [hget, heq], ?_⟩
          intro j hj
          have hne := hknows callbackList[j] (List.mem_take_iff_getElem.mpr ⟨j, by omega, rfl⟩)
          simp [hne]
        simp only [Section.apply, List.eraseP_eq_eraseIdx, hfirst]
      · have hmem : token ∈ callbackList.map Callback.token :=
          List.mem_map.mpr ⟨c, List.mem_of_getElem? hc, heq⟩
        simp [Section.Agrees, hmem]

theorem OwnGo.knows {callbackList : List (Callback F)} {pc pc' : Pc F A}
    (h : OwnGo callbackList pc pc') (hpc : pc.Knows callbackList) : pc'.Knows callbackList := by
  cases h with
  | @next token it c hc hne =>
      intro d hd
      rw [List.take_add_one, hc] at hd
      rcases List.mem_append.mp hd with hd | hd
      · exact hpc d hd
      · simp only [Option.toList_some, List.mem_singleton] at hd
        exact hd ▸ hne
  | _ => trivial

structure Registered (s : State F A) : Prop where
  knows : ∀ u, (s.pc u).Knows s.callbackList
  list : s.callbackList = registry s.sections
  legal : Legal s.sections
  numbered : ∀ u n sec, s.pc u = .unlock n sec → s.sections[n]? = some sec

/-- A step that records nothing. -/
theorem Registered.go {s t : State F A} (hs : Registered s) {u : Thread} {pc : Pc F A}
    (hpc : t.pc = Function.update s.pc u pc)
    (hframe : t.callbackList = s.callbackList ∧ t.sections = s.sections)
    (hknows : pc.Knows s.callbackList) (hunlock : ∀ n sec, pc ≠ .unlock n sec) :
    Registered t := by
  obtain ⟨hlist, hsections⟩ := hframe
  constructor
  · rw [hpc, hlist]
    exact forall_update (P := fun _ pc => Pc.Knows s.callbackList pc) hs.knows hknows
  · rw [hlist, hsections]
    exact hs.list
  · rw [hsections]
    exact hs.legal
  · rw [hpc, hsections]
    exact forall_update
      (P := fun _ (pc : Pc F A) => ∀ n sec, pc = .unlock n sec → s.sections[n]? = some sec)
      hs.numbered fun n sec h => absurd h (hunlock n sec)

theorem Pc.Knows.outside {callbackList left : List (Callback F)} {pc : Pc F A}
    (hpc : pc.Knows callbackList) (h : pc.inside = false) : pc.Knows left := by
  cases pc with
  | holding body => cases h
  | lock body => cases body <;> exact hpc
  | _ => trivial

theorem Pc.Knows.locked {callbackList : List (Callback F)} {body : Body F A}
    (hpc : (Pc.lock body).Knows callbackList) : (Pc.holding body).Knows callbackList := by
  cases body with
  | search token it =>
      have hfront : it = 0 := hpc
      intro c hc
      rw [hfront, List.take_zero] at hc
      cases hc
  | _ => trivial

theorem Registered.recorded {s : State F A} (hs : Registered s) (hguard : Guarded s) {u : Thread}
    {body : Body F A} {left : List (Callback F)} {sec : Section F A}
    (hpc : s.pc u = .holding body) (h : Records s.callbackList body left sec) :
    Registered (record u left sec s) := by
  have hknows := hs.knows u
  rw [hpc] at hknows
  obtain ⟨hleft, hagrees⟩ := h.spec hknows
  have hin : (s.pc u).inside = true := by
    rw [hpc]
    rfl
  constructor
  · intro v
    by_cases hv : v = u
    · subst hv
      rw [record, State.go_self]
      trivial
    · rw [record, State.go_other hv]
      refine (hs.knows v).outside (Bool.eq_false_iff.mpr fun hno => ?_)
      exact hv (hguard.unique hno hin)
  · show left = registry (s.sections ++ [sec])
    rw [registry_append, ← hs.list, hleft]
  · exact hs.legal.append (hs.list ▸ hagrees)
  · intro v n sec' hunlock
    show (s.sections ++ [sec])[n]? = some sec'
    by_cases hv : v = u
    · subst hv
      rw [record, State.go_self] at hunlock
      cases hunlock
      exact List.getElem?_concat_length
    · rw [record, State.go_other hv] at hunlock
      have hn := hs.numbered v n sec' hunlock
      rw [List.getElem?_append_left (List.getElem?_eq_some_iff.mp hn).1]
      exact hn

theorem OwnGo.unlock {callbackList : List (Callback F)} {pc pc' : Pc F A}
    (h : OwnGo callbackList pc pc') (n : ℕ) (sec : Section F A) : pc' ≠ .unlock n sec := by
  cases h <;> nofun

theorem Section.next_ne_unlock (sec : Section F A) (m n : ℕ) (sec' : Section F A) :
    sec.next m ≠ .unlock n sec' := by
  cases sec <;> nofun

theorem Section.next_knows (sec : Section F A) (n : ℕ) (callbackList : List (Callback F)) :
    (sec.next n).Knows callbackList := by
  cases sec <;> trivial

theorem Op.entry_ne_unlock (op : Op F A) (n : ℕ) (sec : Section F A) :
    op.entry ≠ .unlock n sec := by
  cases op <;> nofun

theorem Op.entry_knows (op : Op F A) (callbackList : List (Callback F)) :
    op.entry.Knows callbackList := by
  cases op <;> trivial

theorem Registered.of_reach {poolSize : ℕ} {s : State F A} (h : (machine poolSize).Reach s) :
    Registered s := by
  refine h.invariant (P := Registered) ?_ ?_
  · rintro s rfl
    exact ⟨fun u => trivial, rfl, fun n sec hn => (by cases hn), fun u n sec hno => (by cases hno)⟩
  · intro s a t hreach hs _ hst
    have hguard := Guarded.of_reach hreach
    cases step_cases hst with
    | pool => exact ⟨hs.knows, hs.list, hs.legal, hs.numbered⟩
    | @start u op hfree =>
        exact hs.go (u := u) rfl ⟨rfl, rfl⟩ (op.entry_knows _) op.entry_ne_unlock
    | @own u t hcall h =>
        cases h with
        | go h => exact hs.go (u := u) rfl ⟨rfl, rfl⟩ (h.knows (hs.knows u)) h.unlock
        | record hpc h => exact hs.recorded hguard hpc h
        | @lock body hpc hfree =>
            have hknows := hs.knows u
            rw [hpc] at hknows
            exact hs.go (u := u) rfl ⟨rfl, rfl⟩ hknows.locked nofun
        | @unlock n sec hpc =>
            exact hs.go (u := u) rfl ⟨rfl, rfl⟩ (sec.next_knows n _) (sec.next_ne_unlock n)
        | make | returns | enqueue => exact hs.go (u := u) rfl ⟨rfl, rfl⟩ trivial nofun

/-! ## Tokens are unique -/

/-- The callback that a thread has made and not yet appended. -/
def Pc.pushes : Pc F A → Option (Callback F)
  | .lock (.push h) | .holding (.push h) => some h
  | _ => none

structure Tokens (s : State F A) : Prop where
  nodup : (s.callbackList.map Callback.token).Nodup
  listed : ∀ c ∈ s.callbackList, c.token < s.made
  pushed : ∀ u h, (s.pc u).pushes = some h →
    h.token < s.made ∧ h.token ∉ s.callbackList.map Callback.token
  unique : ∀ u v h k, (s.pc u).pushes = some h → (s.pc v).pushes = some k →
    h.token = k.token → u = v
  copies : ∀ (n : ℕ) localList args, s.sections[n]? = some (.copy localList args) →
    (localList.map Callback.token).Nodup

theorem OwnGo.pushes {callbackList : List (Callback F)} {pc pc' : Pc F A}
    (h : OwnGo callbackList pc pc') : pc'.pushes = none := by
  cases h <;> rfl

theorem Section.next_pushes (sec : Section F A) (n : ℕ) : (sec.next n).pushes = none := by
  cases sec <;> rfl

theorem Op.entry_pushes (op : Op F A) : op.entry.pushes = none := by
  cases op <;> rfl

theorem Records.tokens {callbackList left : List (Callback F)} {body : Body F A}
    {sec : Section F A} (h : Records callbackList body left sec) :
    left.Sublist callbackList ∨ ∃ c, body = .push c ∧ left = callbackList ++ [c] := by
  cases h with
  | push c => exact .inr ⟨c, rfl, rfl⟩
  | found => exact .inl (List.eraseIdx_sublist ..)
  | clear => exact .inl (List.nil_sublist _)
  | missing | copy | size => exact .inl (List.Sublist.refl _)

/-- A step that neither makes a token nor changes the list. -/
theorem Tokens.go {s t : State F A} (hs : Tokens s) {u : Thread} {pc : Pc F A}
    (hpc : t.pc = Function.update s.pc u pc)
    (hframe : t.callbackList = s.callbackList ∧ t.sections = s.sections ∧ t.made = s.made)
    (hpushes : ∀ h, pc.pushes = some h → (s.pc u).pushes = some h) : Tokens t := by
  obtain ⟨hlist, hsections, hmade⟩ := hframe
  have hold : ∀ v h, (t.pc v).pushes = some h → (s.pc v).pushes = some h := by
    rw [hpc]
    exact forall_update
      (P := fun v (pc : Pc F A) => ∀ h, pc.pushes = some h → (s.pc v).pushes = some h)
      (fun _ _ h => h) hpushes
  constructor
  · rw [hlist]
    exact hs.nodup
  · rw [hlist, hmade]
    exact hs.listed
  · intro v h hv
    rw [hlist, hmade]
    exact hs.pushed v h (hold v h hv)
  · intro v w h k hv hw
    exact hs.unique v w h k (hold v h hv) (hold w k hw)
  · rw [hsections]
    exact hs.copies

theorem Tokens.make {s : State F A} (hs : Tokens s) (u : Thread) (handle : Option F) :
    Tokens ({ s with made := s.made + 1 }.go u (.lock (.push ⟨s.made, handle⟩))) := by
  have hfresh : ∀ v h, (s.pc v).pushes = some h → h.token ≠ s.made :=
    fun v h hv => (hs.pushed v h hv).1.ne
  constructor
  · exact hs.nodup
  · intro c hc
    exact Nat.lt_succ_of_lt (hs.listed c hc)
  · intro v h hv
    by_cases heq : v = u
    · rw [heq, State.go_self] at hv
      cases hv
      refine ⟨Nat.lt_succ_self _, fun hmem => ?_⟩
      obtain ⟨c, hc, htoken⟩ := List.mem_map.mp hmem
      exact (hs.listed c hc).ne htoken
    · rw [State.go_other heq] at hv
      obtain ⟨hlt, habsent⟩ := hs.pushed v h hv
      exact ⟨Nat.lt_succ_of_lt hlt, habsent⟩
  · intro v w h k hv hw htoken
    by_cases hvu : v = u <;> by_cases hwu : w = u
    · rw [hvu, hwu]
    · rw [hvu, State.go_self] at hv
      rw [State.go_other hwu] at hw
      cases hv
      exact absurd htoken.symm (hfresh w k hw)
    · rw [State.go_other hvu] at hv
      rw [hwu, State.go_self] at hw
      cases hw
      exact absurd htoken (hfresh v h hv)
    · rw [State.go_other hvu] at hv
      rw [State.go_other hwu] at hw
      exact hs.unique v w h k hv hw htoken
  · exact hs.copies

theorem Tokens.recorded {s : State F A} (hs : Tokens s) {u : Thread} {body : Body F A}
    {left : List (Callback F)} {sec : Section F A} (hpc : s.pc u = .holding body)
    (h : Records s.callbackList body left sec) : Tokens (record u left sec s) := by
  have hothers : ∀ v h, ((record u left sec s).pc v).pushes = some h →
      v ≠ u ∧ (s.pc v).pushes = some h := by
    intro v h hv
    by_cases heq : v = u
    · rw [heq, record, State.go_self] at hv
      cases hv
    · rw [record, State.go_other heq] at hv
      exact ⟨heq, hv⟩
  -- what is appended is the mover's own token
  have hleft : ∀ c ∈ left, c ∈ s.callbackList ∨ (s.pc u).pushes = some c := by
    intro c hc
    rcases h.tokens with hsub | ⟨d, rfl, rfl⟩
    · exact .inl (hsub.subset hc)
    · rcases List.mem_append.mp hc with hc | hc
      · exact .inl hc
      · rw [List.mem_singleton.mp hc, hpc]
        exact .inr rfl
  constructor
  · show (left.map Callback.token).Nodup
    rcases h.tokens with hsub | ⟨d, rfl, rfl⟩
    · exact (hsub.map Callback.token).nodup hs.nodup
    · have hd := (hs.pushed u d (by rw [hpc]; rfl)).2
      rw [List.map_append, List.nodup_append_comm]
      exact List.nodup_cons.mpr ⟨hd, hs.nodup⟩
  · intro c hc
    rcases hleft c hc with hc | hc
    · exact hs.listed c hc
    · exact (hs.pushed u c hc).1
  · intro v h hv
    obtain ⟨hne, hv⟩ := hothers v h hv
    refine ⟨(hs.pushed v h hv).1, fun hmem => ?_⟩
    obtain ⟨c, hc, htoken⟩ := List.mem_map.mp hmem
    rcases hleft c hc with hc | hc
    · exact (hs.pushed v h hv).2 (List.mem_map.mpr ⟨c, hc, htoken⟩)
    · exact hne (hs.unique v u h c hv hc htoken.symm)
  · intro v w h k hv hw
    exact hs.unique v w h k (hothers v h hv).2 (hothers w k hw).2
  · intro n localList args hn
    have hn : (s.sections ++ [sec])[n]? = some (.copy localList args) := hn
    by_cases hlt : n < s.sections.length
    · rw [List.getElem?_append_left hlt] at hn
      exact hs.copies n localList args hn
    · rw [List.getElem?_append_right (Nat.not_lt.mp hlt)] at hn
      have hsec : sec = .copy localList args := by
        have hmem := List.mem_of_getElem? hn
        exact (List.mem_singleton.mp hmem).symm
      subst hsec
      cases h
      exact hs.nodup

theorem Tokens.of_reach {poolSize : ℕ} {s : State F A} (h : (machine poolSize).Reach s) :
    Tokens s := by
  refine h.invariant (P := Tokens) ?_ ?_
  · rintro s rfl
    exact ⟨List.nodup_nil, nofun, nofun, nofun, fun n localList args hn => (by cases hn)⟩
  · intro s a t _ hs _ hst
    cases step_cases hst with
    | pool => exact ⟨hs.nodup, hs.listed, hs.pushed, hs.unique, hs.copies⟩
    | @start u op hfree =>
        refine hs.go (u := u) rfl ⟨rfl, rfl, rfl⟩ fun h hno => ?_
        rw [op.entry_pushes] at hno
        cases hno
    | @own u t hcall h =>
        cases h with
        | make hpc => exact hs.make u _
        | record hpc h => exact hs.recorded hpc h
        | go h =>
            refine hs.go (u := u) rfl ⟨rfl, rfl, rfl⟩ fun c hno => ?_
            rw [h.pushes] at hno
            cases hno
        | @lock body hpc hfree =>
            refine hs.go (u := u) rfl ⟨rfl, rfl, rfl⟩ fun c hc => ?_
            rw [hpc]
            cases body <;> exact hc
        | @unlock n sec hpc =>
            refine hs.go (u := u) rfl ⟨rfl, rfl, rfl⟩ fun c hno => ?_
            rw [sec.next_pushes] at hno
            cases hno
        | returns | enqueue => exact hs.go (u := u) rfl ⟨rfl, rfl, rfl⟩ nofun

end MessageDistribute
