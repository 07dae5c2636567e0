import Multicore.Reclaim.GarbageCollector

/-! Why the collector waits. A worker that has registered keeps its clock while it is
inside a stack operation, and every clock that is handed out later is younger. A node
that is cleaned later gets a younger clock, and a search for the least clock that begins
after that comes back with the older one at most, provided that the second reads of the
loop do not raise the minimum. The node then stays in the hands or in the dirty list of
the worker that cleans it. -/

namespace Multicore.Reclaim

variable {T N : Type*}

/-- The search for the least clock has not missed the clock `x` of `w`. -/
def Pc.Bounded (w : T) (x : ℕ) : Pc T N → Prop
  | .test _ its min => w ∈ its ∨ min ≤ x
  | .take _ it its min => w = it ∨ w ∈ its ∨ min ≤ x
  | .unlock _ min | .compare _ min | .stamp _ min | .size _ min | .cleanup _ min => min ≤ x
  | _ => True

namespace GarbageCollector

/-- The clocks do not wrap, and the second read of a clock is not above the minimum so far. -/
def Steady (g : GarbageCollector T N) (t : T) : Prop :=
  match g.pc t with
  | .regClock | .cleanClock _ | .cleanupClock _ => g.clock + 1 < UInt64.size
  | .take _ it _ min => (g.gcn it).clock ≤ min
  | _ => True

instance (g : GarbageCollector T N) (t : T) : Decidable (g.Steady t) :=
  match hp : g.pc t with
  | .regClock | .cleanClock _ | .cleanupClock _ =>
    decidable_of_iff (g.clock + 1 < UInt64.size) (by simp only [Steady, hp])
  | .take _ it _ min => decidable_of_iff ((g.gcn it).clock ≤ min) (by simp only [Steady, hp])
  | .regStore _ | .regPush | .working | .allocated _ | .cleanStore _ _ | .rdlock _ | .test _ _ _
  | .unlock _ _ | .compare _ _ | .stamp _ _ | .size _ _ | .cleanup _ _ | .cleanupStore _ _ | .full _
  | .deregTest | .deregRemove | .destroy | .gone => .isTrue (by simp only [Steady, hp])

/-- The step does not wrap the clock. -/
def NoWrap (g : GarbageCollector T N) (t : T) : Prop :=
  match g.pc t with
  | .regClock | .cleanClock _ | .cleanupClock _ => g.clock + 1 < UInt64.size
  | _ => True

theorem Steady.noWrap {g : GarbageCollector T N} {t : T} (hst : Steady g t) : NoWrap g t := by
  unfold Steady at hst
  unfold NoWrap
  generalize g.pc t = p at hst ⊢
  cases p <;> first | exact hst | exact trivial

/-- The worker's clock is among the clocks from `reg` to `dereg`. -/
def Registered (g : GarbageCollector T N) (t : T) : Prop :=
  match g.pc t with
  | .regClock | .regStore _ | .regPush | .destroy | .gone => True
  | _ => t ∈ g.clocks

/-- The clocks that the worker has or is about to store were handed out before. -/
def Timely (g : GarbageCollector T N) (t : T) : Prop :=
  match g.pc t with
  | .regClock => True
  | .regStore c => c < g.clock
  | .cleanStore _ c | .cleanupStore _ c => c < g.clock ∧ (g.gcn t).clock < g.clock
  | _ => (g.gcn t).clock < g.clock

/-- `t` is cleaning `n`, and its new clock, or the one that `n` has got, is younger than `x`. -/
def Younger (g : GarbageCollector T N) (t : T) (n : N) (x : ℕ) : Prop :=
  match g.pc t with
  | .cleanClock m => m = n
  | .cleanStore m c => m = n ∧ x < c
  | .rdlock k | .test k _ _ | .take k _ _ _ | .unlock k _ => k = .clean n ∧ x < (g.gcn t).clock
  | .compare m _ | .stamp m _ => m = n ∧ x < (g.gcn t).clock
  | .cleanup k _ | .cleanupClock k | .cleanupStore k _ => k = .clean n ∧ x < g.nodeClock n
  | .size m _ | .full m => m = n ∧ x < g.nodeClock n
  | _ => False

/-- `t` keeps `n` from being deleted or handed out while `w` has its clock. -/
structure Shields (g : GarbageCollector T N) (t w : T) (n : N) : Prop where
  bounded : (g.pc t).Bounded w (g.gcn w).clock
  waits : g.Younger t n (g.gcn w).clock ∨
    n ∈ (g.gcn t).dirtyList.elems ∧ (g.gcn w).clock < g.nodeClock n

section Exec
variable [DecidableEq T] [DecidableEq N] {g u : GarbageCollector T N} {t v w : T} {d : List N}
  {n m : N} {p : Pc T N}

theorem exec_clock_le (hst : NoWrap g t) (hu : g.exec t = some (u, d)) : g.clock ≤ u.clock := by
  unfold exec at hu
  split at hu
  all_goals rename_i hp
  all_goals simp only [NoWrap, hp] at hst
  all_goals repeat' split at hu
  all_goals cases hu
  all_goals try exact Nat.le_refl _
  all_goals show g.clock ≤ g.getclock.clock
  all_goals rw [getclock_clock hst]
  all_goals exact Nat.le_succ _

/-- A step of `t` changes the registration of `t` alone. -/
theorem mem_clocks_of_ne (hu : g.exec t = some (u, d)) (hv : v ≠ t) : v ∈ u.clocks ↔ v ∈ g.clocks := by
  unfold exec at hu
  repeat' split at hu
  all_goals cases hu
  all_goals simp [getclock, hv]

theorem Registered.exec (hg : ∀ v, Registered g v) (hu : g.exec t = some (u, d)) (v : T) :
    Registered u v := by
  by_cases hv : v = t
  · subst hv
    have h := hg v
    unfold GarbageCollector.exec at hu
    split at hu
    all_goals rename_i hp
    all_goals simp only [Registered, hp] at h
    all_goals repeat' split at hu
    all_goals cases hu
    all_goals simp [Registered, getclock, h]
  · have h := hg v
    obtain ⟨hpc, -⟩ := exec_of_ne hu hv
    simpa only [Registered, hpc, mem_clocks_of_ne hu hv] using h

theorem Timely.exec (hg : ∀ v, Timely g v) (hst : Steady g t) (hu : g.exec t = some (u, d)) (v : T) :
    Timely u v := by
  have hle := exec_clock_le hst.noWrap hu
  by_cases hv : v = t
  · subst hv
    have h := hg v
    unfold GarbageCollector.exec at hu
    split at hu
    all_goals rename_i hp
    all_goals simp only [Timely, hp] at h
    all_goals simp only [Steady, hp] at hst
    all_goals repeat' split at hu
    all_goals cases hu
    all_goals simp only [Timely, goto_pc, goto_gcn, goto_clock, put_pc, put_gcn, put_clock, getclock] at hle ⊢
    all_goals first
      | omega
      | rw [Nat.mod_eq_of_lt hst]; omega
  · have h := hg v
    obtain ⟨hpc, hgcn⟩ := exec_of_ne hu hv
    simp only [Timely, hpc, hgcn]
    split
    all_goals rename_i hp
    all_goals simp only [Timely, hp] at h
    all_goals omega

omit [DecidableEq N] in
/-- A registered worker goes on to something else. -/
theorem Registered.goto (hg : ∀ v, Registered g v) (ht : t ∈ g.clocks) (v : T) : Registered (g.goto t p) v := by
  by_cases hv : v = t
  · subst hv
    unfold Registered
    split
    all_goals first | exact trivial | exact ht
  · have h := hg v
    simpa only [Registered, goto_pc_of_ne hv, goto_clocks] using h

omit [DecidableEq N] in
theorem Registered.alloc {fresh : N} (hg : ∀ v, Registered g v) (ht : t ∈ g.clocks) (v : T) :
    Registered (g.alloc t fresh).1 v := by
  by_cases hv : v = t
  · subst hv
    simpa only [Registered, alloc_pc, alloc_clocks] using ht
  · have h := hg v
    simpa only [Registered, alloc_pc_of_ne hv, alloc_clocks] using h

omit [DecidableEq N] in
theorem Timely.goto (hg : ∀ v, Timely g v) (ht : Timely (g.goto t p) t) (v : T) : Timely (g.goto t p) v := by
  by_cases hv : v = t
  · exact hv ▸ ht
  · have h := hg v
    simpa only [Timely, goto_pc_of_ne hv, goto_gcn, goto_clock] using h

omit [DecidableEq N] in
theorem Timely.alloc {fresh : N} (hg : ∀ v, Timely g v) (ht : (g.gcn t).clock < g.clock) (v : T) :
    Timely (g.alloc t fresh).1 v := by
  by_cases hv : v = t
  · subst hv
    simpa only [Timely, alloc_pc, alloc_gcnClock, alloc_clock] using ht
  · have h := hg v
    simpa only [Timely, alloc_pc_of_ne hv, alloc_gcnClock, alloc_clock] using h

/-- Only the node in hand gets a clock. -/
theorem exec_nodeClock (hu : g.exec t = some (u, d)) (hn : (g.pc t).hand ≠ some n) :
    u.nodeClock n = g.nodeClock n := by
  unfold exec at hu
  split at hu
  all_goals rename_i hp
  all_goals rw [hp] at hn
  all_goals repeat' split at hu
  all_goals cases hu
  all_goals first
    | rfl
    | exact Function.update_of_ne (fun h => hn (congrArg some h.symm)) ..

/-- Another worker takes a step. -/
theorem Shields.other (hs : Shields g t w n) (hu : g.exec v = some (u, d)) (ht : t ≠ v) (hw : w ≠ v)
    (hn : (g.pc v).hand ≠ some n) : Shields u t w n := by
  obtain ⟨hpc, hgcn⟩ := exec_of_ne hu ht
  obtain ⟨-, hgcnw⟩ := exec_of_ne hu hw
  have hclock := exec_nodeClock hu hn
  refine ⟨?_, ?_⟩
  · rw [hpc, hgcnw]
    exact hs.bounded
  · simpa only [Younger, hpc, hgcn, hgcnw, hclock] using hs.waits

/-- The search does not miss a clock that is registered. -/
theorem bounded_exec (hb : (g.pc t).Bounded w (g.gcn w).clock) (hreg : w ∈ g.clocks) (hst : Steady g t)
    (hu : g.exec t = some (u, d)) : (u.pc t).Bounded w (g.gcn w).clock := by
  cases hp : g.pc t with
  | rdlock k =>
    simp only [exec, hp, Option.some.injEq, Prod.mk.injEq] at hu
    obtain ⟨rfl, -⟩ := hu
    rw [goto_pc]
    exact .inl hreg
  | test k its min =>
    rw [hp] at hb
    cases its with
    | nil =>
      simp only [exec, hp, Option.some.injEq, Prod.mk.injEq] at hu
      obtain ⟨rfl, -⟩ := hu
      rw [goto_pc]
      exact hb.resolve_left List.not_mem_nil
    | cons it its =>
      simp only [exec, hp] at hu
      split at hu <;> cases hu <;> rename_i hlt <;> rw [goto_pc]
      · rcases hb with hmem | hmin
        · exact (List.mem_cons.mp hmem).imp_right .inl
        · exact .inr (.inr hmin)
      · rcases hb with hmem | hmin
        · rcases List.mem_cons.mp hmem with rfl | hmem
          · exact .inr (Nat.not_lt.mp hlt)
          · exact .inl hmem
        · exact .inr hmin
  | take k it its min =>
    rw [hp] at hb
    simp only [Steady, hp] at hst
    simp only [exec, hp, Option.some.injEq, Prod.mk.injEq] at hu
    obtain ⟨rfl, -⟩ := hu
    rw [goto_pc]
    rcases hb with rfl | hmem | hmin
    · exact .inr (Nat.le_refl _)
    · exact .inl hmem
    · exact .inr (Nat.le_trans hst hmin)
  | unlock k min =>
    rw [hp] at hb
    cases k <;> simp only [exec, hp, Option.some.injEq, Prod.mk.injEq] at hu <;> obtain ⟨rfl, -⟩ := hu
    all_goals rw [goto_pc]
    all_goals exact hb
  | stamp n min =>
    rw [hp] at hb
    simp only [exec, hp, Option.some.injEq, Prod.mk.injEq] at hu
    obtain ⟨rfl, -⟩ := hu
    rw [goto_pc]
    exact hb
  | compare n min | size n min | cleanup k min =>
    rw [hp] at hb
    simp only [exec, hp] at hu
    repeat' split at hu
    all_goals cases hu
    all_goals first | rw [goto_pc] | rw [put_pc]
    all_goals first | exact hb | exact trivial
  | cleanupStore k c =>
    cases k <;> simp only [exec, hp, Option.some.injEq, Prod.mk.injEq] at hu <;> obtain ⟨rfl, -⟩ := hu
    all_goals rw [put_pc]
    all_goals exact trivial
  | _ =>
    simp only [exec, hp] at hu
    repeat' split at hu
    all_goals cases hu
    all_goals simp [Pc.Bounded]

/-- A node that waits goes on waiting. -/
theorem waits_exec {x : ℕ} (hb : (g.pc t).Bounded w x)
    (hwaits : g.Younger t n x ∨ n ∈ (g.gcn t).dirtyList.elems ∧ x < g.nodeClock n) (hx : x < g.clock)
    (hn : ∀ m, (g.pc t).hand = some m → m ∉ (g.gcn t).dirtyList.elems) (hu : g.exec t = some (u, d)) :
    u.Younger t n x ∨ n ∈ (u.gcn t).dirtyList.elems ∧ x < u.nodeClock n := by
  cases hp : g.pc t with
  | cleanClock m =>
    simp only [exec, hp, Option.some.injEq, Prod.mk.injEq] at hu
    obtain ⟨rfl, -⟩ := hu
    simp only [Younger, hp, goto_pc] at hwaits ⊢
    exact hwaits.imp_left fun hm => ⟨hm, hx⟩
  | compare m min =>
    simp only [exec, hp] at hu
    split at hu <;> cases hu <;> rename_i hmin <;> simp only [Younger, hp, goto_pc] at hwaits ⊢
    · -- the least clock is not above `x`, so it is not the clock that was taken for `n`
      refine hwaits.imp_left ?_
      rintro ⟨rfl, hlt⟩
      rw [hp] at hb
      exact absurd (hmin ▸ hb) (Nat.not_le.mpr hlt)
    · exact hwaits
  | stamp m min =>
    simp only [exec, hp, Option.some.injEq, Prod.mk.injEq] at hu
    obtain ⟨rfl, -⟩ := hu
    simp only [Younger, hp, goto_pc, goto_nodeClock, goto_gcn] at hwaits ⊢
    rcases hwaits with ⟨rfl, hlt⟩ | ⟨hmem, hlt⟩
    · exact .inl ⟨rfl, by rwa [Function.update_self]⟩
    · have hnm : n ≠ m := fun h => hn m (by rw [hp]; rfl) (h ▸ hmem)
      exact .inr ⟨hmem, by rwa [Function.update_of_ne hnm]⟩
  | cleanup k min =>
    rw [hp] at hb
    have hkeep : ∀ m, (g.gcn t).dirtyList.front = some m → g.nodeClock m < min →
        n ∈ (g.gcn t).dirtyList.elems → x < g.nodeClock n → n ∈ (g.gcn t).dirtyList.popFront.elems := by
      intro m hm hmin hmem hlt
      rw [CircularBuffer.elems_eq_cons hm] at hmem
      refine (List.mem_cons.mp hmem).resolve_left ?_
      rintro rfl
      exact absurd (Nat.lt_trans hlt hmin) (Nat.not_lt.mpr hb)
    simp only [exec, hp] at hu
    repeat' split at hu
    all_goals cases hu
    · simpa [Younger, hp] using hwaits
    · rename_i m hm hmin hfull
      simp only [Younger, hp, put_pc, put_gcn, put_nodeClock] at hwaits ⊢
      exact hwaits.imp_right fun h => ⟨hkeep m hm hmin h.1 h.2, h.2⟩
    · rename_i m hm hmin hfull
      simp only [Younger, hp, put_pc, put_gcn, put_nodeClock] at hwaits ⊢
      exact hwaits.imp_right fun h => ⟨hkeep m hm hmin h.1 h.2, h.2⟩
    · simpa [Younger, hp] using hwaits
  | full m =>
    simp only [exec, hp] at hu
    split at hu <;> cases hu
    rename_i hfull
    simp only [Younger, hp, put_pc, put_gcn, put_nodeClock] at hwaits ⊢
    rw [CircularBuffer.pushBack_elems (by simpa using hfull), List.mem_append, List.mem_singleton]
    rcases hwaits with ⟨rfl, hlt⟩ | ⟨hmem, hlt⟩
    · exact .inr ⟨.inr rfl, hlt⟩
    · exact .inr ⟨.inl hmem, hlt⟩
  | test k its min =>
    cases its <;> simp only [exec, hp] at hu
    all_goals repeat' split at hu
    all_goals cases hu
    all_goals simpa [Younger, hp] using hwaits
  | unlock k min | cleanupStore k c =>
    cases k <;> simp only [exec, hp, Option.some.injEq, Prod.mk.injEq] at hu <;> obtain ⟨rfl, -⟩ := hu
    all_goals simpa [Younger, hp] using hwaits
  | _ =>
    simp only [exec, hp] at hu
    repeat' split at hu
    all_goals cases hu
    all_goals simpa [Younger, hp, getclock] using hwaits

/-- The worker that shields a node takes a step. -/
theorem Shields.exec (hs : Shields g t w n) (hw : w ≠ t) (hreg : w ∈ g.clocks)
    (hx : (g.gcn w).clock < g.clock)
    (hn : ∀ m, (g.pc t).hand = some m → m ∉ (g.gcn t).dirtyList.elems) (hst : Steady g t)
    (hu : g.exec t = some (u, d)) : Shields u t w n := by
  have hgcn := (exec_of_ne hu hw).2
  refine ⟨?_, ?_⟩
  · rw [hgcn]
    exact bounded_exec hs.bounded hreg hst hu
  · rw [hgcn]
    exact waits_exec hs.bounded hs.waits hx hn hu

omit [DecidableEq T] [DecidableEq N] in
theorem Younger.hand {x : ℕ} (hy : g.Younger t n x) : (g.pc t).hand = some n := by
  unfold Younger at hy
  split at hy
  all_goals rename_i hp
  all_goals simp only [hp, Pc.hand]
  all_goals first
    | exact hy.elim
    | exact congrArg Caller.node hy.1
    | exact congrArg some hy.1
    | exact congrArg some hy

omit [DecidableEq T] [DecidableEq N] in
theorem Shields.place (hs : Shields g t w n) : n ∈ g.holds (.hand t) ∨ n ∈ g.holds (.dirty t) := by
  refine hs.waits.imp (fun hy => ?_) fun h => h.1
  rw [hand_eq hy.hand]
  exact List.mem_cons_self

omit [DecidableEq N] in
/-- A worker that is not cleaning goes on to something else. -/
theorem Shields.goto (hs : Shields g t w n) (hv : ∀ x, ¬ g.Younger v n x) (hp : ∀ x, p.Bounded w x) :
    Shields (g.goto v p) t w n := by
  by_cases ht : t = v
  · subst ht
    refine ⟨?_, .inr (hs.waits.resolve_left (hv _))⟩
    rw [goto_pc]
    exact hp _
  · refine ⟨?_, ?_⟩
    · rw [goto_pc_of_ne ht]
      exact hs.bounded
    · simpa only [Younger, goto_pc_of_ne ht, goto_gcn, goto_nodeClock] using hs.waits

omit [DecidableEq N] in
theorem Shields.alloc (hs : Shields g t w n) (hv : ∀ x, ¬ g.Younger v n x) (fresh : N) :
    Shields (g.alloc v fresh).1 t w n := by
  by_cases ht : t = v
  · subst ht
    refine ⟨?_, ?_⟩
    · rw [alloc_pc]
      exact trivial
    · simpa using .inr (hs.waits.resolve_left (hv _))
  · refine ⟨?_, ?_⟩
    · rw [alloc_pc_of_ne ht, alloc_gcnClock]
      exact hs.bounded
    · simpa only [Younger, alloc_pc_of_ne ht, alloc_gcn_of_ne ht, alloc_gcnClock, alloc_nodeClock]
        using hs.waits

end Exec

end GarbageCollector

end Multicore.Reclaim
