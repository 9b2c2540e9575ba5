import RedoxKernel.Fs.Scheme.Calls

/-!
# The windows lent to the provider

A lending operation pushes a record onto the provider context's memory map before it calls, and
retires it after the call only if the inner can be upgraded again: `Transition.answer` runs
`retireLent`, `Transition.orphan` does not. The memory map belongs to the provider's context and
outlives the inner. So when the provider drops its last handle while a client is blocked, the client
returns `Err(EBADF)` and the record stays in the map, an alias of the caller's pages that nothing
retires later (`window_outlives_operation`). The same holds when `next_mem()` gives `0`: the record
is pushed at `0` before the address is checked, and the operation returns at once.

Where the retirement does run, it does its job when the window is the only record that covers its
address, since `zeroMem` zeroes the first record over the address and no other. Whether that is so
depends on where `next_mem()` puts the windows. When it puts each
one above every record of the map and every window still lent (`WindowsAbove`), at most one record
covers the address of a lent window in every reachable state (`LentApart`), and an operation that
finds its reply leaves no record over its window and keeps every other record of nonzero size
(`window_retired`).

Until then the window stays as it was lent. In the same runs every record over a lent window starts
at it and no two blocked calls lent one window (`WindowsOwned`), so a retirement zeroes no record
over another call's window, and a window pushed later lies above it. `lent_window_kept` folds that
over every run of the other parties: until the blocked client's own next turn, the records over its
window are the same, whatever the provider and the other clients do.
-/

set_option autoImplicit false
set_option relaxedAutoImplicit false

namespace RedoxKernel.Fs

/-! ### The retirement -/

/-- A record covers `virt` when `virt` lies in its window. -/
def ContextMemory.Covers (mem : ContextMemory) (virt : Nat) : Prop :=
  mem.virtualAddress ≤ virt ∧ virt < mem.virtualAddress + mem.virtualSize

instance (mem : ContextMemory) (virt : Nat) : Decidable (mem.Covers virt) :=
  inferInstanceAs (Decidable (_ ∧ _))

/-- A record of size `0` covers nothing. -/
theorem not_covers_of_size_zero (mem : ContextMemory) (virt : Nat) :
    ¬ ({ mem with virtualSize := 0 } : ContextMemory).Covers virt := by
  simp only [ContextMemory.Covers]; omega

/-- Zeroing the first record that covers `virt` covers no address more often than before. -/
theorem countP_zeroMem_le (virt virt' : Nat) :
    ∀ memory : List ContextMemory, (zeroMem virt memory).countP (·.Covers virt') ≤
      memory.countP (·.Covers virt')
  | [] => le_refl _
  | mem :: rest => by
    unfold zeroMem
    split_ifs
    · simp only [List.countP_cons, decide_eq_true_eq, not_covers_of_size_zero, if_false]
      omega
    · simp only [List.countP_cons]
      have := countP_zeroMem_le virt virt' rest
      omega

/-- Where at most one record covers `virt`, zeroing the first leaves none. -/
theorem zeroMem_not_covers {virt : Nat} :
    ∀ {memory : List ContextMemory}, memory.countP (·.Covers virt) ≤ 1 →
      ∀ mem ∈ zeroMem virt memory, ¬ mem.Covers virt
  | [], _ => by simp [zeroMem]
  | m :: rest, h => by
    unfold zeroMem
    split_ifs with hm
    · have hrest : rest.countP (·.Covers virt) = 0 := by
        rw [List.countP_cons, if_pos (decide_eq_true (show m.Covers virt from hm))] at h; omega
      intro mem hmem
      rcases List.mem_cons.mp hmem with rfl | hmem
      · exact not_covers_of_size_zero m virt
      · simpa using List.countP_eq_zero.mp hrest mem hmem
    · have hrest : rest.countP (·.Covers virt) ≤ 1 := by
        rw [List.countP_cons] at h; omega
      intro mem hmem
      rcases List.mem_cons.mp hmem with rfl | hmem
      · exact hm
      · exact zeroMem_not_covers hrest mem hmem

/-- Zeroing the first record that covers `virt` keeps every record that does not cover it. -/
theorem mem_zeroMem {virt : Nat} {mem : ContextMemory} (hmem : ¬ mem.Covers virt) :
    ∀ {memory : List ContextMemory}, mem ∈ memory → mem ∈ zeroMem virt memory
  | m :: rest, h => by
    unfold zeroMem
    split_ifs with hm
    · rcases List.mem_cons.mp h with rfl | h
      · exact absurd hm hmem
      · exact List.mem_cons_of_mem _ h
    · rcases List.mem_cons.mp h with rfl | h
      · exact List.mem_cons_self _ _
      · exact List.mem_cons_of_mem _ (mem_zeroMem hmem h)

/-! ### Windows that outlive their operation -/

/-- The caller's buffer of the runs below: 10 bytes at offset 100 of frame 5, read into by
`SchemeResource::read`. -/
def lentRead (abi : Syscalls) : Lend := lendBuffer abi.sysRead 0 (5 * 4096 + 100) 10

/-- `next_mem()` places every window above each record of the map and each window still lent, and
the record of a lending operation starts at the address it was given. -/
def WindowsAbove (s : System) : Action → Prop
  | .lend _ op virt => 0 < s.strong → (op.record virt).virtualAddress = virt ∧
    (∀ mem ∈ s.memory, mem.virtualAddress + mem.virtualSize ≤ virt) ∧
    ∀ c id V, s.clients c = .waiting id (some V) → V < virt
  | _ => True

/-- At most one record of the map covers the address of a window still lent. -/
def LentApart (s : System) : Prop :=
  ∀ c id V, s.clients c = .waiting id (some V) → s.memory.countP (·.Covers V) ≤ 1

section LentApart

variable {w : Nat} {s s' : System} {a : Action}

/-- Pushing a record that starts above `V` leaves the records covering `V` as they were. -/
theorem countP_push_above {V : Nat} (memory : List ContextMemory) {r : ContextMemory}
    (hr : V < r.virtualAddress) :
    (memory ++ [r]).countP (·.Covers V) = memory.countP (·.Covers V) := by
  have : ¬ r.Covers V := fun h => absurd h.1 (by omega)
  simp [List.countP_append, this]

/-- A client that a step made idle was not that step's client before, if it is blocked now. -/
theorem waiting_of_update_idle {f : Nat → Phase} {c c' id : Nat} {lent : Option Nat}
    (h : Function.update f c .idle c' = .waiting id lent) : f c' = .waiting id lent := by
  by_cases hcc : c' = c
  · subst hcc; simp at h
  · rwa [Function.update_noteq hcc] at h

/-- Every step of a run whose windows are placed apart keeps them apart. -/
theorem LentApart.step (hI : LentApart s) (hP : WindowsAbove s a) (h : s.step w a = some s') :
    LentApart s' := by
  cases System.step_cases h with
  | submit c regs lent memory _ hs _ hmem =>
    intro c' id V hc'
    by_cases hcc : c' = c
    · subst hcc
      simp only [Function.update_same, Phase.waiting.injEq] at hc'
      obtain ⟨-, rfl⟩ := hc'
      obtain ⟨h, -⟩ | ⟨op, virt, rfl, hlent, rfl⟩ := hmem
      · cases h
      · cases hlent
        obtain ⟨-, hbelow, -⟩ := hP hs
        have hnone : s.memory.countP (·.Covers V) = 0 := List.countP_eq_zero.mpr
          fun mem hm hcov => Nat.not_lt.mpr (hbelow mem hm) (of_decide_eq_true hcov).2
        rw [List.countP_append, hnone, Nat.zero_add]
        exact List.countP_le_length _
    · simp only [Function.update_noteq hcc] at hc'
      obtain ⟨h, rfl⟩ | ⟨op, virt, rfl, -, rfl⟩ := hmem
      · exact hI c' id V hc'
      · obtain ⟨hva, -, habove⟩ := hP hs
        rw [countP_push_above _ (by rw [hva]; exact habove c' id V hc')]
        exact hI c' id V hc'
  | push c op virt ha hs =>
    subst ha
    obtain ⟨hva, -, habove⟩ := hP hs
    intro c' id V hc'
    rw [countP_push_above _ (by rw [hva]; exact habove c' id V hc')]
    exact hI c' id V hc'
  | answer c id lent regs =>
    intro c' id' V hc'
    replace hc' := waiting_of_update_idle hc'
    cases lent with
    | none => exact hI c' id' V hc'
    | some virt =>
      calc (retire virt s.memory).countP (·.Covers V)
          ≤ (zeroMem virt s.memory).countP (·.Covers V) :=
            List.Sublist.countP_le _ (List.filter_sublist _)
        _ ≤ s.memory.countP (·.Covers V) := countP_zeroMem_le _ _ _
        _ ≤ 1 := hI c' id' V hc'
  | orphan c id lent => exact fun c' id' V hc' => hI c' id' V (waiting_of_update_idle hc')
  | refuse c => exact hI
  | idle => exact hI
  | deliver k regs => exact hI
  | reply packet => exact hI
  | share n => exact hI
  | drop => exact hI

end LentApart

/-- With every window placed above the map and the windows still lent, an operation that finds its
reply while the inner lives returns and retires its window: afterwards no record of the map covers
the window's address, and every record of nonzero size that did not cover it is still there. -/
theorem window_retired {w : Nat} {s : System} (hs : Reachable w WindowsAbove s)
    {c id V : Nat} {regs : Regs} (hc : s.clients c = .waiting id (some V)) (hlive : 0 < s.strong)
    (hdone : s.inner.done.get id = some regs) :
    ∃ s', s.step w (.poll c) = some s' ∧ s'.clients c = .idle ∧
      (∀ mem ∈ s'.memory, ¬ mem.Covers V) ∧
      ∀ mem ∈ s.memory, mem.virtualSize ≠ 0 → ¬ mem.Covers V → mem ∈ s'.memory := by
  have hI : LentApart s :=
    hs.invariant LentApart (fun _ _ _ c id V h => nomatch h) fun _ hI hP h => hI.step hP h
  refine ⟨_, System.step_poll_of_done hlive hc hdone, Function.update_same _ _ _,
    fun mem hmem => ?_, fun mem hmem hsize hcov => ?_⟩
  · exact zeroMem_not_covers (hI c id V hc) mem (List.mem_filter.mp hmem).1
  · exact List.mem_filter.mpr ⟨mem_zeroMem hcov hmem, by simpa using hsize⟩

/-- `SchemeResource::read` of `lentRead` in page 100, read by the provider and answered with `0`. -/
def lentTrip : System :=
  ((((System.new [] [] []).lend 64 0 (lentRead ⟨0, 0, 0, 0, 0, 0, 0, 0, 0, 0⟩) 409600).recv 64 40
    ⟨0, 0, 0, 0, 0⟩).reply 64 40 ⟨1, 0, 0, 0, 0⟩)

/-- `window_retired` on `lentTrip`: the window at page 100 is gone after client 0's next turn. -/
theorem window_retired_lentTrip :
    Reachable 64 WindowsAbove lentTrip ∧ lentTrip.clients 0 = .waiting 1 (some 409600) ∧
      0 < lentTrip.strong ∧ lentTrip.inner.done.get 1 = some ⟨0, 0, 0, 0⟩ ∧
      ∃ s', lentTrip.step 64 (.poll 0) = some s' ∧ s'.clients 0 = .idle ∧
        (∀ mem ∈ s'.memory, ¬ mem.Covers 409600) ∧
        ∀ mem ∈ lentTrip.memory, mem.virtualSize ≠ 0 → ¬ mem.Covers 409600 → mem ∈ s'.memory := by
  let s₁ := (System.new [] [] []).lend 64 0 (lentRead ⟨0, 0, 0, 0, 0, 0, 0, 0, 0, 0⟩) 409600
  have hrun : Reachable 64 WindowsAbove lentTrip :=
    .next (.next (.next (.new [] [] [])
      (show WindowsAbove (System.new [] [] []) (.lend 0 (lentRead ⟨0, 0, 0, 0, 0, 0, 0, 0, 0, 0⟩)
        409600) from fun _ => ⟨rfl, nofun, fun _ _ _ h => nomatch h⟩) rfl)
      (show WindowsAbove s₁ (.recv 40 ⟨0, 0, 0, 0, 0⟩) from trivial) rfl)
      (show WindowsAbove (s₁.recv 64 40 ⟨0, 0, 0, 0, 0⟩) (.reply 40 ⟨1, 0, 0, 0, 0⟩) from trivial) rfl
  have hc : lentTrip.clients 0 = .waiting 1 (some 409600) := rfl
  have hdone : lentTrip.inner.done.get 1 = some ⟨0, 0, 0, 0⟩ := rfl
  exact ⟨hrun, hc, Nat.one_pos, hdone, window_retired hrun hc Nat.one_pos hdone⟩

/-! ### A lent window stays while its call is blocked -/

/-- Every record that covers a lent window starts at it, and no two blocked calls lent one
window. -/
structure WindowsOwned (s : System) : Prop where
  starts : ∀ c id V, s.clients c = .waiting id (some V) →
    ∀ mem ∈ s.memory, mem.Covers V → mem.virtualAddress = V
  distinct : ∀ c c' id id' V, s.clients c = .waiting id (some V) →
    s.clients c' = .waiting id' (some V) → c = c'

section WindowsOwned

variable {w : Nat} {s s' : System} {a : Action}

/-- A record that zeroing leaves over an address was in the map before. -/
theorem mem_of_mem_zeroMem {virt V : Nat} {mem : ContextMemory} (hcov : mem.Covers V) :
    ∀ {memory : List ContextMemory}, mem ∈ zeroMem virt memory → mem ∈ memory
  | [], h => h
  | m :: rest, h => by
    unfold zeroMem at h
    split_ifs at h
    · rcases List.mem_cons.mp h with rfl | h
      · exact absurd hcov (not_covers_of_size_zero m V)
      · exact List.mem_cons_of_mem _ h
    · rcases List.mem_cons.mp h with rfl | h
      · exact List.mem_cons_self _ _
      · exact List.mem_cons_of_mem _ (mem_of_mem_zeroMem hcov h)

/-- A record that a retirement leaves over an address was in the map before. -/
theorem mem_of_mem_retireLent {V : Nat} {mem : ContextMemory} (hcov : mem.Covers V) :
    ∀ {lent : Option Nat} {memory : List ContextMemory},
      mem ∈ System.retireLent lent memory → mem ∈ memory
  | none, _, h => h
  | some _, _, h => mem_of_mem_zeroMem hcov (List.mem_filter.mp h).1

/-- Zeroing the first record over `virt` keeps the records over `V` when no record covers
both. -/
theorem filter_covers_zeroMem {virt V : Nat} :
    ∀ {memory : List ContextMemory}, (∀ mem ∈ memory, mem.Covers virt → ¬ mem.Covers V) →
      (zeroMem virt memory).filter (·.Covers V) = memory.filter (·.Covers V)
  | [], _ => rfl
  | m :: rest, h => by
    unfold zeroMem
    split_ifs with hm
    · have hmV := h m (List.mem_cons_self _ _) hm
      simp only [List.filter_cons, hmV, not_covers_of_size_zero, decide_False, Bool.false_eq_true,
        if_false]
    · simp only [List.filter_cons]
      rw [filter_covers_zeroMem fun mem hmem => h mem (List.mem_cons_of_mem _ hmem)]

/-- `clean_mem` keeps every record that covers an address. -/
theorem filter_covers_cleanMem (V : Nat) (memory : List ContextMemory) :
    (cleanMem memory).filter (·.Covers V) = memory.filter (·.Covers V) := by
  rw [cleanMem, List.filter_filter]
  refine List.filter_congr fun mem _ => ?_
  by_cases h : mem.Covers V
  · have : mem.virtualSize ≠ 0 := by unfold ContextMemory.Covers at h; omega
    simp [h, this]
  · simp [h]

/-- A record pushed above `V` adds nothing over `V`. -/
theorem filter_covers_push_above {V : Nat} (memory : List ContextMemory) {r : ContextMemory}
    (hr : V < r.virtualAddress) :
    (memory ++ [r]).filter (·.Covers V) = memory.filter (·.Covers V) := by
  have : ¬ r.Covers V := fun h => absurd h.1 (by omega)
  simp [List.filter_append, this]

/-- A client blocked after client `c` took phase `p` is `c` in phase `p`, or was blocked so
before. -/
theorem update_eq_waiting {f : Nat → Phase} {c c' id : Nat} {p : Phase} {lent : Option Nat}
    (h : Function.update f c p c' = .waiting id lent) :
    c' = c ∧ p = .waiting id lent ∨ c' ≠ c ∧ f c' = .waiting id lent := by
  by_cases hcc : c' = c
  · subst hcc
    exact .inl ⟨rfl, by simpa using h⟩
  · exact .inr ⟨hcc, by rwa [Function.update_noteq hcc] at h⟩

/-- A step that makes one client idle and leaves no record over an address that was not there
keeps the window facts. -/
theorem WindowsOwned.of_idle (hI : WindowsOwned s) {c : Nat}
    (hclients : s'.clients = Function.update s.clients c .idle)
    (hmem : ∀ V, ∀ mem ∈ s'.memory, mem.Covers V → mem ∈ s.memory) : WindowsOwned s' := by
  refine ⟨fun c' id V hc' mem hm hcov => ?_, fun c₁ c₂ id₁ id₂ V h₁ h₂ => ?_⟩
  · rw [hclients] at hc'
    exact hI.starts c' id V (waiting_of_update_idle hc') mem (hmem V mem hm hcov) hcov
  · rw [hclients] at h₁ h₂
    exact hI.distinct c₁ c₂ id₁ id₂ V (waiting_of_update_idle h₁) (waiting_of_update_idle h₂)

/-- Every step of a run whose windows are placed apart keeps the window facts. -/
theorem WindowsOwned.step (hI : WindowsOwned s) (hP : WindowsAbove s a)
    (h : s.step w a = some s') : WindowsOwned s' := by
  cases System.step_cases h with
  | submit c regs lent memory _ hs _ hmem =>
    obtain ⟨rfl, rfl⟩ | ⟨op, virt, rfl, rfl, rfl⟩ := hmem
    · have hold : ∀ {c' id V}, Function.update s.clients c (.waiting s.inner.nextId none) c' =
          .waiting id (some V) → s.clients c' = .waiting id (some V) := fun h' => by
        rcases update_eq_waiting h' with ⟨-, hp⟩ | ⟨-, h'⟩
        · cases hp
        · exact h'
      exact ⟨fun c' id V hc' => hI.starts c' id V (hold hc'),
        fun c₁ c₂ id₁ id₂ V h₁ h₂ => hI.distinct c₁ c₂ id₁ id₂ V (hold h₁) (hold h₂)⟩
    · obtain ⟨hva, hbelow, habove⟩ := hP hs
      have hnew : ∀ {c' id V},
          Function.update s.clients c (.waiting s.inner.nextId (some virt)) c' =
            .waiting id (some V) → V = virt ∨ s.clients c' = .waiting id (some V) ∧ V < virt :=
        fun h' => by
          rcases update_eq_waiting h' with ⟨-, hp⟩ | ⟨-, h'⟩
          · cases hp; exact .inl rfl
          · exact .inr ⟨h', habove _ _ _ h'⟩
      refine ⟨fun c' id V hc' mem hmem hcov => ?_, fun c₁ c₂ id₁ id₂ V h₁ h₂ => ?_⟩
      · rcases List.mem_append.mp hmem with hold | hpushed
        · rcases hnew hc' with rfl | ⟨hwas, -⟩
          · exact absurd hcov.2 (Nat.not_lt.mpr (hbelow mem hold))
          · exact hI.starts c' id V hwas mem hold hcov
        · rw [List.mem_singleton] at hpushed
          subst hpushed
          rcases hnew hc' with rfl | ⟨-, hlt⟩
          · exact hva
          · exact absurd hcov.1 (by omega)
      · rcases update_eq_waiting h₁ with ⟨rfl, hp₁⟩ | ⟨-, hwas₁⟩ <;>
          rcases update_eq_waiting h₂ with ⟨rfl, hp₂⟩ | ⟨-, hwas₂⟩
        · rfl
        · cases hp₁; exact absurd (habove _ _ _ hwas₂) (Nat.lt_irrefl _)
        · cases hp₂; exact absurd (habove _ _ _ hwas₁) (Nat.lt_irrefl _)
        · exact hI.distinct c₁ c₂ id₁ id₂ V hwas₁ hwas₂
  | push c op virt ha hs =>
    subst ha
    obtain ⟨hva, -, habove⟩ := hP hs
    refine ⟨fun c' id V hc' mem hmem hcov => ?_, hI.distinct⟩
    rcases List.mem_append.mp hmem with hmem | hmem
    · exact hI.starts c' id V hc' mem hmem hcov
    · rw [List.mem_singleton] at hmem
      subst hmem
      exact absurd hcov.1 (by have := habove c' id V hc'; omega)
  | answer c id lent regs =>
    exact hI.of_idle rfl fun _ _ hmem hcov => mem_of_mem_retireLent hcov hmem
  | orphan c id lent => exact hI.of_idle rfl fun _ _ hmem _ => hmem
  | refuse c => exact ⟨hI.1, hI.2⟩
  | idle => exact hI
  | deliver k regs => exact ⟨hI.1, hI.2⟩
  | reply packet => exact ⟨hI.1, hI.2⟩
  | share n => exact ⟨hI.1, hI.2⟩
  | drop => exact ⟨hI.1, hI.2⟩

/-- A step that leaves client `c` blocked on its request keeps the records over its window: a
window pushed now lies above it, and a retirement zeroes a record that starts at another
window. -/
theorem WindowsOwned.covering_step (hI : WindowsOwned s) (hP : WindowsAbove s a)
    (h : s.step w a = some s') {c id V : Nat} (hc : s.clients c = .waiting id (some V))
    (hc' : s'.clients c = .waiting id (some V)) :
    s'.memory.filter (·.Covers V) = s.memory.filter (·.Covers V) := by
  cases System.step_cases h with
  | submit c'' regs lent memory _ hs _ hmem =>
    obtain ⟨-, rfl⟩ | ⟨op, virt, rfl, -, rfl⟩ := hmem
    · rfl
    · obtain ⟨hva, -, habove⟩ := hP hs
      exact filter_covers_push_above _ (by rw [hva]; exact habove c id V hc)
  | push c'' op virt ha hs =>
    subst ha
    obtain ⟨hva, -, habove⟩ := hP hs
    exact filter_covers_push_above _ (by rw [hva]; exact habove c id V hc)
  | answer c'' id'' lent regs hc'' =>
    have hne : c ≠ c'' := by rintro rfl; simp at hc'
    cases lent with
    | none => rfl
    | some V' =>
      have hV : V' ≠ V := by rintro rfl; exact hne (hI.distinct c c'' id id'' V' hc hc'')
      rw [System.retireLent, retire, filter_covers_cleanMem, filter_covers_zeroMem]
      intro mem hmem hcov' hcov
      exact hV ((hI.starts c'' id'' V' hc'' mem hmem hcov').symm.trans
        (hI.starts c id V hc mem hmem hcov))
  | orphan => rfl
  | refuse => rfl
  | idle => rfl
  | deliver => rfl
  | reply => rfl
  | share => rfl
  | drop => rfl

end WindowsOwned

/-- The window facts hold in every state of a run whose windows are placed apart. -/
theorem windowsOwned_of_reachable {w : Nat} {s : System} (hs : Reachable w WindowsAbove s) :
    WindowsOwned s :=
  hs.invariant WindowsOwned
    (fun _ _ _ => ⟨fun _ _ _ h => (nomatch h), fun _ _ _ _ _ h => nomatch h⟩)
    fun _ hI hP h => hI.step hP h

/-- With every window placed above the map and the windows still lent, a call blocked with a
window keeps it as it was lent until its own next turn: whatever the provider and the other
clients do in between, each step placed apart in its own state, the client stays blocked on its
request and the records that cover its window are the same. -/
theorem lent_window_kept {w : Nat} {s s' : System} {actions : List Action}
    (hs : Reachable w WindowsAbove s) {c id V : Nat} (hc : s.clients c = .waiting id (some V))
    (hP : s.Obeys w WindowsAbove actions) (hturn : Action.poll c ∉ actions)
    (h : s.run w actions = some s') :
    s'.clients c = .waiting id (some V) ∧
      s'.memory.filter (·.Covers V) = s.memory.filter (·.Covers V) := by
  induction actions generalizing s with
  | nil =>
    cases Option.some.inj h
    exact ⟨hc, rfl⟩
  | cons a actions ih =>
    obtain ⟨s₁, h₁, h⟩ := Option.bind_eq_some.mp h
    have ha : a ≠ .poll c := fun he => hturn (he ▸ List.mem_cons_self _ _)
    have hc₁ := System.clients_step_of_waiting hc ha h₁
    obtain ⟨hc', hkept⟩ := ih (hs.after h₁ hP.1) hc₁ (hP.2 s₁ h₁)
      (fun hmem => hturn (List.mem_cons_of_mem _ hmem)) h
    exact ⟨hc', hkept.trans ((windowsOwned_of_reachable hs).covering_step hP.1 h₁ hc hc₁)⟩

/-- Client `0` blocked in `SchemeResource::read` of `lentRead`, its window at page 100. -/
def lentBlocked : System :=
  (System.new [] [] []).lend 64 0 (lentRead ⟨0, 0, 0, 0, 0, 0, 0, 0, 0, 0⟩) 409600

/-- The buffer of a `SchemeResource::write` by client `1`: 8 bytes at the start of frame 9. -/
def lentWrite (abi : Syscalls) : Lend := lendBuffer abi.sysWrite 1 (9 * 4096) 8

/-- Client `1` lends `lentWrite` at page 101, above client `0`'s window; the provider reads both
requests and answers client `1`'s, and client `1` returns and retires its window. -/
def otherTrip : List Action :=
  [.lend 1 (lentWrite ⟨0, 0, 0, 0, 0, 0, 0, 0, 0, 0⟩) 413696, .recv 40 ⟨0, 0, 0, 0, 0⟩,
    .recv 40 ⟨0, 0, 0, 0, 0⟩, .reply 40 ⟨2, 0, 0, 0, 0⟩, .poll 1]

/-- `lent_window_kept` on `lentBlocked` over `otherTrip`: client `1`'s window comes and goes, and
client `0`'s stays as it was lent. -/
theorem lent_window_kept_lentBlocked :
    Reachable 64 WindowsAbove lentBlocked ∧ lentBlocked.clients 0 = .waiting 1 (some 409600) ∧
      lentBlocked.Obeys 64 WindowsAbove otherTrip ∧ Action.poll 0 ∉ otherTrip ∧
      ∃ s', lentBlocked.run 64 otherTrip = some s' ∧ s'.clients 1 = .idle ∧
        s'.memory = lentBlocked.memory ∧ s'.clients 0 = .waiting 1 (some 409600) ∧
        s'.memory.filter (·.Covers 409600) = lentBlocked.memory.filter (·.Covers 409600) := by
  have hs : Reachable 64 WindowsAbove lentBlocked := .next (.new [] [] [])
    (show WindowsAbove (System.new [] [] []) (.lend 0 (lentRead ⟨0, 0, 0, 0, 0, 0, 0, 0, 0, 0⟩)
      409600) from fun _ => ⟨rfl, nofun, fun _ _ _ h => nomatch h⟩) rfl
  have hc : lentBlocked.clients 0 = .waiting 1 (some 409600) := rfl
  have hmem : lentBlocked.memory = [⟨5 * 4096, 409600, 4096, true, false⟩] := rfl
  -- client `1`'s window lies above client `0`'s record and window
  have habove : WindowsAbove lentBlocked (.lend 1 (lentWrite ⟨0, 0, 0, 0, 0, 0, 0, 0, 0, 0⟩) 413696) :=
    fun _ => ⟨rfl, by rw [hmem]; simp, fun c id V h => by
      by_cases h0 : c = 0
      · subst h0; cases hc.symm.trans h; omega
      · exact absurd h (by simp [lentBlocked, System.lend, System.startCall, System.new, h0])⟩
  have hP : lentBlocked.Obeys 64 WindowsAbove otherTrip :=
    ⟨habove, fun _ _ => ⟨trivial, fun _ _ => ⟨trivial, fun _ _ => ⟨trivial, fun _ _ =>
      ⟨trivial, fun _ _ => trivial⟩⟩⟩⟩⟩
  have hturn : Action.poll 0 ∉ otherTrip := by simp [otherTrip]
  exact ⟨hs, hc, hP, hturn, _, rfl, rfl, rfl, lent_window_kept hs hc hP hturn rfl⟩
end RedoxKernel.Fs
