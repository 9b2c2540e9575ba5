import RedoxKernel.Fs.Scheme.Ids

/-!
# Requests are delivered in the order they were queued

`SchemeServerResource::read` always takes the least key of `todo`, and `SchemeInner::call` queues
under `next_id`, which only grows while it does not wrap. Together these make delivery first-in,
first-out. `Ordered` is what a run keeps for that, whatever the provider does, as long as `next_id`
never wraps (`Reachable w (NoWrap w)`): every queued id is below `next_id`, the queued ids grow along
the trace, every request still in `todo` was queued and lies above every id already delivered, and
every delivery carries the id and words of an earlier request. `ordered_of_reachable` proves it of
every such state, from one lemma per kind of step: `Ordered.quiet` for the steps that neither queue
nor deliver, `Ordered.submit` and `Ordered.deliver` for the two that do.

`deliveries_in_order` is the result: successive deliveries carry increasing ids, and of two
requests that are both delivered, the one queued first is delivered first.
-/

set_option autoImplicit false
set_option relaxedAutoImplicit false

namespace RedoxKernel.Fs

/-- The order facts of a run in which `next_id` does not wrap. -/
structure Ordered (s : System) : Prop where
  submit_lt : ∀ c id regs, Event.submit c id regs ∈ s.trace → id < s.inner.nextId
  submits_ordered : ∀ c₁ c₂ id₁ id₂ r₁ r₂,
    HappensBefore s.trace (.submit c₁ id₁ r₁) (.submit c₂ id₂ r₂) → id₁ < id₂
  todo_submitted : ∀ k regs, s.inner.todo.get k = some regs → ∃ c, Event.submit c k regs ∈ s.trace
  delivered_lt_todo : ∀ k x k' regs,
    Event.deliver k x ∈ s.trace → s.inner.todo.get k' = some regs → k < k'
  deliver_submitted : ∀ k regs, Event.deliver k regs ∈ s.trace →
    ∃ c, HappensBefore s.trace (.submit c k regs) (.deliver k regs)
  delivers_ordered : ∀ id₁ id₂ x₁ x₂,
    HappensBefore s.trace (.deliver id₁ x₁) (.deliver id₂ x₂) → id₁ < id₂

namespace Ordered

variable {w : Nat} {s s' : System} {a : Action}

/-- A step that records neither a request nor a delivery and leaves `next_id` and `todo` alone
keeps the order facts. -/
theorem quiet (hI : Ordered s) {e : Event} (htrace : s'.trace = e :: s.trace)
    (hnext : s'.inner.nextId = s.inner.nextId) (htodo : s'.inner.todo = s.inner.todo)
    (hsub : ∀ c id regs, e ≠ .submit c id regs) (hdel : ∀ id regs, e ≠ .deliver id regs) :
    Ordered s' where
  submit_lt c id regs h := by
    rw [htrace, List.mem_cons] at h
    rw [hnext]
    exact hI.submit_lt c id regs (h.resolve_left fun he => hsub c id regs he.symm)
  submits_ordered c₁ c₂ id₁ id₂ r₁ r₂ h := by
    rw [htrace, happensBefore_cons_iff] at h
    exact hI.submits_ordered c₁ c₂ id₁ id₂ r₁ r₂
      (h.resolve_right fun ⟨he, _⟩ => hsub c₂ id₂ r₂ he.symm)
  todo_submitted k regs h := by
    rw [htodo] at h
    obtain ⟨c, hc⟩ := hI.todo_submitted k regs h
    exact ⟨c, htrace ▸ List.mem_cons_of_mem e hc⟩
  delivered_lt_todo k x k' regs h hk := by
    rw [htrace, List.mem_cons] at h
    rw [htodo] at hk
    exact hI.delivered_lt_todo k x k' regs (h.resolve_left fun he => hdel k x he.symm) hk
  deliver_submitted k regs h := by
    rw [htrace, List.mem_cons] at h
    obtain ⟨c, hc⟩ := hI.deliver_submitted k regs (h.resolve_left fun he => hdel k regs he.symm)
    exact ⟨c, htrace ▸ hc.cons e⟩
  delivers_ordered id₁ id₂ x₁ x₂ h := by
    rw [htrace, happensBefore_cons_iff] at h
    exact hI.delivers_ordered id₁ id₂ x₁ x₂ (h.resolve_right fun ⟨he, _⟩ => hdel id₂ x₂ he.symm)

/-- Queuing a request under `next_id`, below the wrap, keeps the order facts. -/
theorem submit (hI : Ordered s) (hw : s.inner.nextId + 1 < 2 ^ w) (c : Nat) (regs : Regs)
    (lent : Option Nat) (memory : List ContextMemory) :
    Ordered { s with memory, inner := (s.inner.submit w regs).2,
                     clients := Function.update s.clients c (.waiting s.inner.nextId lent),
                     trace := .submit c s.inner.nextId regs :: s.trace } where
  submit_lt c' id regs' h := by
    simp only [submit_nextId, nextIdAfter_of_lt hw]
    rcases List.mem_cons.mp h with he | h
    · cases he; omega
    · exact Nat.lt_succ_of_lt (hI.submit_lt c' id regs' h)
  submits_ordered c₁ c₂ id₁ id₂ r₁ r₂ h := by
    rcases happensBefore_cons_iff.mp h with h | ⟨he, hmem⟩
    · exact hI.submits_ordered c₁ c₂ id₁ id₂ r₁ r₂ h
    · cases he; exact hI.submit_lt c₁ id₁ r₁ hmem
  todo_submitted k regs' h := by
    simp only [submit_todo, BTreeMap.get_insert] at h
    split_ifs at h with hk
    · cases h; exact ⟨c, hk ▸ List.mem_cons_self _ _⟩
    · obtain ⟨c', hc'⟩ := hI.todo_submitted k regs' h
      exact ⟨c', List.mem_cons_of_mem _ hc'⟩
  delivered_lt_todo k x k' regs' h hk := by
    have h : Event.deliver k x ∈ s.trace := (List.mem_cons.mp h).resolve_left nofun
    simp only [submit_todo, BTreeMap.get_insert] at hk
    split_ifs at hk with hk'
    · obtain ⟨c', hc'⟩ := hI.deliver_submitted k x h
      exact hk' ▸ hI.submit_lt c' k x hc'.mem_left
    · exact hI.delivered_lt_todo k x k' regs' h hk
  deliver_submitted k regs' h := by
    obtain ⟨c', hc'⟩ := hI.deliver_submitted k regs' ((List.mem_cons.mp h).resolve_left nofun)
    exact ⟨c', hc'.cons _⟩
  delivers_ordered id₁ id₂ x₁ x₂ h :=
    hI.delivers_ordered id₁ id₂ x₁ x₂ ((happensBefore_cons_iff.mp h).resolve_right nofun)

/-- Delivering the least queued request keeps the order facts. -/
theorem deliver (hI : Ordered s) {k : Nat} {regs : Regs} (hk : s.inner.todo.firstKey? = some k)
    (hregs : s.inner.todo.get k = some regs) :
    Ordered { s with inner := { s.inner with todo := (s.inner.todo.remove k).2 },
                     trace := .deliver k regs :: s.trace } where
  submit_lt c id regs' h := hI.submit_lt c id regs' ((List.mem_cons.mp h).resolve_left nofun)
  submits_ordered c₁ c₂ id₁ id₂ r₁ r₂ h :=
    hI.submits_ordered c₁ c₂ id₁ id₂ r₁ r₂ ((happensBefore_cons_iff.mp h).resolve_right nofun)
  todo_submitted k' regs' h := by
    simp only [BTreeMap.get_remove] at h
    split_ifs at h
    obtain ⟨c, hc⟩ := hI.todo_submitted k' regs' h
    exact ⟨c, List.mem_cons_of_mem _ hc⟩
  delivered_lt_todo k'' x k' regs' h hk' := by
    simp only [BTreeMap.get_remove] at hk'
    split_ifs at hk' with hne
    rcases List.mem_cons.mp h with he | h
    · cases he
      have hle := (BTreeMap.firstKey?_eq_some hk).2 k' (by simp [hk'])
      omega
    · exact hI.delivered_lt_todo k'' x k' regs' h hk'
  deliver_submitted k' regs' h := by
    rcases List.mem_cons.mp h with he | h
    · cases he
      obtain ⟨c, hc⟩ := hI.todo_submitted k regs hregs
      exact ⟨c, happensBefore_head hc _⟩
    · obtain ⟨c, hc⟩ := hI.deliver_submitted k' regs' h
      exact ⟨c, hc.cons _⟩
  delivers_ordered id₁ id₂ x₁ x₂ h := by
    rcases happensBefore_cons_iff.mp h with h | ⟨he, hmem⟩
    · exact hI.delivers_ordered id₁ id₂ x₁ x₂ h
    · cases he; exact hI.delivered_lt_todo id₁ x₁ k regs hmem hregs

/-- Every step below the wrap keeps the order facts. -/
theorem step (hI : Ordered s) (hP : NoWrap w s a) (h : s.step w a = some s') : Ordered s' := by
  cases System.step_cases h with
  | submit c regs lent memory _ _ hw => exact hI.submit (hw hP) c regs lent memory
  | deliver k regs _ hk _ hregs => exact hI.deliver hk hregs
  | refuse c => exact hI.quiet rfl rfl rfl (fun _ _ _ => nofun) (fun _ _ => nofun)
  | answer c id lent regs => exact hI.quiet rfl rfl rfl (fun _ _ _ => nofun) (fun _ _ => nofun)
  | orphan c id lent => exact hI.quiet rfl rfl rfl (fun _ _ _ => nofun) (fun _ _ => nofun)
  | reply packet => exact hI.quiet rfl rfl rfl (fun _ _ _ => nofun) (fun _ _ => nofun)
  | drop => exact hI.quiet rfl rfl rfl (fun _ _ _ => nofun) (fun _ _ => nofun)
  | idle => exact hI
  | push c op virt => exact ⟨hI.1, hI.2, hI.3, hI.4, hI.5, hI.6⟩
  | share n => exact ⟨hI.1, hI.2, hI.3, hI.4, hI.5, hI.6⟩

end Ordered

/-- The order facts hold in every state that runs without a wrap of `next_id` reach. -/
theorem ordered_of_reachable {w : Nat} {s : System} (hs : Reachable w (NoWrap w) s) : Ordered s :=
  hs.invariant Ordered (fun _ _ _ => ⟨nofun, nofun, nofun, nofun, nofun, nofun⟩)
    fun _ hI hP h => hI.step hP h

/-- In every run in which `next_id` does not wrap, whatever the provider does, the ids of
successive deliveries increase, and of two requests that are both delivered, the one queued first
is delivered first. -/
theorem deliveries_in_order {w : Nat} {s : System} (hs : Reachable w (NoWrap w) s) :
    (∀ id₁ id₂ x₁ x₂, HappensBefore s.trace (.deliver id₁ x₁) (.deliver id₂ x₂) → id₁ < id₂) ∧
      ∀ p q id₁ id₂ r₁ r₂ x₁ x₂,
        HappensBefore s.trace (.submit p id₁ r₁) (.submit q id₂ r₂) →
        Event.deliver id₁ x₁ ∈ s.trace → Event.deliver id₂ x₂ ∈ s.trace →
        HappensBefore s.trace (.deliver id₁ x₁) (.deliver id₂ x₂) := by
  have hI := ordered_of_reachable hs
  refine ⟨hI.delivers_ordered, fun p q id₁ id₂ r₁ r₂ x₁ x₂ hsub h₁ h₂ => ?_⟩
  have hlt := hI.submits_ordered p q id₁ id₂ r₁ r₂ hsub
  rcases happensBefore_total h₁ h₂ (by intro he; cases he; omega) with h | h
  · exact h
  · exact absurd (hI.delivers_ordered id₂ id₁ x₂ x₁ h) (by omega)

/-- `deliveries_in_order` on `bothRead`, where the provider read the requests under `1` and `2`. -/
theorem deliveries_in_order_bothRead :
    Reachable 64 (NoWrap 64) bothRead ∧
      HappensBefore bothRead.trace (.deliver 1 ⟨3, 7, 0, 0⟩) (.deliver 2 ⟨4, 8, 0, 0⟩) ∧
      (∀ id₁ id₂ x₁ x₂,
        HappensBefore bothRead.trace (.deliver id₁ x₁) (.deliver id₂ x₂) → id₁ < id₂) ∧
      ∀ p q id₁ id₂ r₁ r₂ x₁ x₂,
        HappensBefore bothRead.trace (.submit p id₁ r₁) (.submit q id₂ r₂) →
        Event.deliver id₁ x₁ ∈ bothRead.trace → Event.deliver id₂ x₂ ∈ bothRead.trace →
        HappensBefore bothRead.trace (.deliver id₁ x₁) (.deliver id₂ x₂) :=
  have hs : Reachable 64 (NoWrap 64) bothRead := reachable_bothRead.mono fun _ _ h => h.1
  have htrace : bothRead.trace = .deliver 2 ⟨4, 8, 0, 0⟩ :: firstReturned.trace := rfl
  ⟨hs, htrace ▸ happensBefore_head (List.mem_of_mem_tail (List.mem_of_mem_tail
    (List.mem_cons_self _ _))) _, deliveries_in_order hs⟩

end RedoxKernel.Fs
