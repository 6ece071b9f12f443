import MicroFramework.Marking.Collection

/-!
# Collections terminate

Inside one call of the marker every turn leaves less work.  A pass of `MarkSlow` that marks no new
object never gets more than one run deep into the first mark stack, so it drops nothing: as long
as passes follow each other, each marks an object that was not marked before.  The measure counts
the root calls, the objects not marked, what is left of the passes, of the walk and of the call.
-/

namespace MicroFramework.Marking

open Heap Library Marking List Option Collection

/-- Inside a pass: no object on the stacks, and an object at `lst` only right before it is
marked, or right at the start of the call. -/
def Marker.Calm (nodes : List ℕ) (s : Marker) : Prop :=
  (s.stacked = [] ∧ s.num = 1 ∧ s.stack = 0) ∨
    ((∀ a ∈ s.stacked, a ∉ nodes) ∧ (s.num = 1 → s.lst ∈ nodes → s.alive s.lst = false) ∧
      (s.num ≠ 1 → ∀ a ∈ List.range' s.lst s.num, a ∉ nodes))

/-- Inside a pass: since it started with `base` unmarked objects an object has been marked, or the
mark stacks are as good as empty. -/
def Marker.Quiet (nodes : List ℕ) (base : ℕ) (s : Marker) : Prop :=
  dead nodes s.alive < base ∨
    (s.outOfStackSpace = false ∧ s.stackList = 0 ∧ (s.stack = 0 ∨ s.stack = 1 ∧ s.num ≤ 1))

/-- What holds inside a pass that started with `base` unmarked objects. -/
structure PassInvariant (nodes : List ℕ) (base : ℕ) (m : Collection) : Prop where
  bounded : dead nodes m.marker.alive ≤ base
  calm : m.marker.Calm nodes
  quiet : m.marker.Quiet nodes base

variable {memory : ℕ → HeapBlock} {clusters : List (ℕ × ℕ)} {roots : List RootCall}
  {nodes : List ℕ} {allocated : ℕ → Bool} {m m' : Collection} {base : ℕ}

/-- The blocks left after a turn inside a pass are no objects. -/
theorem Marker.Calm.stacked {s s' : Marker} {a : ℕ} (h : s.Calm nodes)
    (hpending : s.pending = a :: s'.stacked) :
    (∀ b ∈ s'.stacked, b ∉ nodes) ∧
      (a ∈ nodes → s.alive a = false ∨ s.stack = 0 ∧ s.num = 1) := by
  rcases h with ⟨hstacked, hnum, hstack⟩ | ⟨hstacked, hone, hmany⟩
  · rw [pending, hstacked, hnum] at hpending
    obtain ⟨-, hnil⟩ := List.cons.inj hpending
    rw [← hnil]
    exact ⟨fun b hb ↦ absurd hb not_mem_nil, fun _ ↦ .inr ⟨hstack, hnum⟩⟩
  · by_cases hnum : s.num = 1
    · rw [pending, hnum] at hpending
      obtain ⟨hlst, hrest⟩ := List.cons.inj hpending
      rw [← hrest, ← hlst]
      exact ⟨hstacked, fun hmem ↦ .inl (hone hnum hmem)⟩
    · have hnone : ∀ b ∈ s.pending, b ∉ nodes := by
        intro b hb
        rcases mem_append.mp hb with hb | hb
        · exact hmany hnum b hb
        · exact hstacked b hb
      rw [hpending] at hnone
      exact ⟨fun b hb ↦ hnone b (mem_cons_of_mem a hb),
        fun hmem ↦ absurd hmem (hnone a mem_cons_self)⟩

theorem PassInvariant.turn (hheap : (graph memory).Managed (rootCells roots) nodes)
    (h : CollectionInvariant memory roots nodes m) (hpass : PassInvariant nodes base m) {s : Marker}
    (hturn : m.marker.Turn s) : PassInvariant nodes base { m with marker := s } := by
  obtain ⟨made, hroots, hmarking⟩ := h.given
  have hgraph := h.same.graph
  cases hturn with
  | visit a hpending hmarked hrun hplace =>
    have hreach : (graph memory).Reach (rootCells roots) a := hmarking.pending a (by
      show a ∈ m.marker.pending
      rw [hpending]
      exact mem_cons_self)
    obtain ⟨hstacked, hnew⟩ := hpass.calm.stacked hpending
    have halive : s.alive = Function.update m.marker.alive a true := congrArg alive hmarked
    have hflag : s.outOfStackSpace = m.marker.outOfStackSpace := congrArg gaveUp hmarked
    have hmono : ∀ b ∈ nodes, m.marker.alive b = true → s.alive b = true := by
      intro b _ hb
      rw [halive]
      by_cases hba : b = a
      · simp [hba]
      · simpa [hba] using hb
    have hle := dead_le hmono
    rw [hgraph] at hrun
    refine ⟨hle.trans hpass.bounded, .inr ⟨hstacked, fun hone hmem ↦ ?_, fun hmany b hb ↦ ?_⟩, ?_⟩
    · have hlst : s.lst ∈ (graph memory).expand s.alive a := by
        have hone' : s.num = 1 := hone
        rw [← hrun, hone']
        exact mem_range'_1.mpr ⟨Nat.le_refl _, Nat.lt_succ_self _⟩
      rcases mem_append.mp hlst with hfield | hlink
      · exact absurd hmem (hheap.field_not_mem a _ hreach hfield)
      · rw [mem_toList, filter_eq_some_iff] at hlink
        simpa using hlink.2
    · have hb' : b ∈ List.range' s.lst s.num := hb
      rw [hrun, Graph.expand] at hb'
      cases hlink : (graph memory).link a with
      | none => exact hheap.field_not_mem a b hreach (by simpa [hlink] using hb')
      | some t =>
        -- a reference leads to one object at most
        exfalso
        have hlength : (List.range' s.lst s.num).length = s.num := length_range'
        rw [hrun, Graph.expand, hlink, fields_eq_nil_of_link hlink] at hlength
        have hnum : s.num ≠ 1 := hmany
        cases hdead : s.alive t with
        | true => simp [hlink, fields_eq_nil_of_link hlink, hdead, Option.filter] at hb'
        | false =>
          rw [Option.filter, hdead] at hlength
          exact hnum (by simpa using hlength.symm)
    · by_cases hmarkedNew : dead nodes s.alive < base
      · exact .inl hmarkedNew
      · -- no object has been marked: the block visited is a field, or the start of the call
        have hsame : ¬ dead nodes s.alive < dead nodes m.marker.alive := by
          have := hpass.bounded
          omega
        have hnotBase : ¬ dead nodes m.marker.alive < base := by omega
        obtain ⟨hflag₀, hlist, hstack⟩ := hpass.quiet.resolve_left hnotBase
        obtain ⟨hshort, hroom⟩ := hplace hlist
        have hlast : 2 ≤ m.marker.stackLast := by
          have hfirst := h.shape.first
          rw [h.shape.last, hlist]
          exact hfirst
        refine .inr ⟨hflag.trans hflag₀, ?_⟩
        by_cases hmem : a ∈ nodes
        · rcases hnew hmem with hdead | ⟨hzero, hone⟩
          · have hlt := dead_lt hmono hmem hdead (by rw [halive]; simp)
            exact absurd hlt hsame
          · obtain ⟨hlist', hstack'⟩ := hshort (by omega)
            exact ⟨hlist', .inl (by show s.stack = 0; omega)⟩
        · have hnum' : s.num ≤ 1 := by
            have hfields : (graph memory).fields a = [] := by
              by_contra hne
              exact hmem (hheap.fields_mem a hreach hne)
            have hlength : (List.range' s.lst s.num).length = s.num := length_range'
            rw [hrun, Graph.expand, hfields] at hlength
            cases hlink : (graph memory).link a with
            | none => simp [hlink] at hlength; omega
            | some t =>
              cases hdead : s.alive t <;> simp [hlink, hdead, Option.filter] at hlength <;> omega
          have hplace' : s.stackList = 0 ∧ s.stack ≤ 1 := by
            rcases hstack with hstack | ⟨hstack, hnum⟩
            · obtain ⟨hlist', hle'⟩ := hroom (by omega)
              exact ⟨hlist', by omega⟩
            · obtain ⟨hlist', hle'⟩ := hshort hnum
              exact ⟨hlist', by omega⟩
          refine ⟨hplace'.1, ?_⟩
          show s.stack = 0 ∨ s.stack = 1 ∧ s.num ≤ 1
          omega
  | dropRun hlong hfull hmarked hnum' hplace =>
    have halive : s.alive = m.marker.alive := congrArg alive hmarked
    have hcalm : (∀ a ∈ m.marker.stacked, a ∉ nodes) := by
      rcases hpass.calm with ⟨-, hone, -⟩ | ⟨hstacked, -⟩
      · omega
      · exact hstacked
    refine ⟨?_, .inr ⟨?_, fun hone ↦ ?_, fun _ b hb ↦ ?_⟩, .inl ?_⟩
    · show dead nodes s.alive ≤ base
      rw [halive]
      exact hpass.bounded
    · intro a ha
      have ha' : a ∈ s.stacked := ha
      rw [hplace.2.2] at ha'
      exact hcalm a ha'
    · have hone' : s.num = 1 := hone
      omega
    · have hb' : b ∈ List.range' s.lst s.num := hb
      rw [hnum'] at hb'
      exact absurd hb' not_mem_nil
    · show dead nodes s.alive < base
      rw [halive]
      refine hpass.quiet.resolve_right ?_
      rintro ⟨-, hlist, hstack⟩
      have hfirst := h.shape.first
      have hlast := h.shape.last
      rw [hlist] at hlast
      omega

theorem CollectionInvariant.stacked_eq_nil (h : CollectionInvariant memory roots nodes m)
    (hloop : m.inLoop = false) : m.marker.stacked = [] := by
  obtain ⟨-, hlist, hstack, -⟩ := h.rest hloop
  rw [Marker.stacked, hlist, hstack]
  rfl

theorem Marker.Calm.of_empty {s : Marker} (hstacked : s.stacked = []) (hnum : s.num = 0) :
    s.Calm nodes := by
  refine .inr ⟨fun a ha ↦ ?_, fun hone ↦ by omega, fun _ a ha ↦ ?_⟩
  · rw [hstacked] at ha
    exact absurd ha not_mem_nil
  · rw [hnum] at ha
    exact absurd ha not_mem_nil

def walkLeft (walk : Option (List (ℕ × ℕ))) : ℕ :=
  ((walk.getD []).map fun p ↦ p.2 - p.1 + 1).sum

/-- Where the collection is between the passes of `MarkSlow`. -/
def phase (nodes : List ℕ) (base : ℕ) (m : Collection) : ℕ :=
  match m.walk with
  | none => if m.inLoop = true ∨ m.marker.outOfStackSpace = true then 2 else 0
  | some _ => if dead nodes m.marker.alive < base then 3 else 1

def callLeft (memory : ℕ → HeapBlock) (nodes : List ℕ) (m : Collection) : ℕ :=
  if m.inLoop then
    (m.marker.pending.map (cost (graph memory) nodes m.marker.alive)).sum + 1
  else 0

/-- What decreases with every step. -/
def rank (memory : ℕ → HeapBlock) (nodes : List ℕ) (base : ℕ) (m : Collection) :
    ℕ ×ₗ ℕ ×ₗ ℕ ×ₗ ℕ ×ₗ ℕ :=
  toLex (m.roots.length, toLex (dead nodes m.marker.alive, toLex (phase nodes base m,
    toLex (walkLeft m.walk, callLeft memory nodes m))))

theorem rank_lt {base' : ℕ} (hroots : m'.roots.length < m.roots.length ∨
    m'.roots.length = m.roots.length ∧
      (dead nodes m'.marker.alive < dead nodes m.marker.alive ∨
        dead nodes m'.marker.alive = dead nodes m.marker.alive ∧
          (phase nodes base' m' < phase nodes base m ∨
            phase nodes base' m' = phase nodes base m ∧
              (walkLeft m'.walk < walkLeft m.walk ∨ walkLeft m'.walk = walkLeft m.walk ∧
                callLeft memory nodes m' < callLeft memory nodes m)))) :
    rank memory nodes base' m' < rank memory nodes base m := by
  simpa [rank, Prod.Lex.toLex_lt_toLex] using hroots

theorem work_turn_lt (hheap : (graph memory).Managed (rootCells roots) nodes)
    (h : CollectionInvariant memory roots nodes m) {s : Marker} (hturn : m.marker.Turn s) :
    work (graph memory) nodes s.marking < work (graph memory) nodes m.marker.marking := by
  obtain ⟨made, hroots, hmarking⟩ := h.given
  cases hturn with
  | visit a hpending hmarked hrun hplace =>
    have hreach : (graph memory).Reach (rootCells roots) a := hmarking.pending a (by
      show a ∈ m.marker.pending
      rw [hpending]
      exact mem_cons_self)
    rw [hmarked, h.same.graph]
    exact work_visit_lt hheap hreach hpending
  | dropRun hlong hfull hmarked hnum' hplace =>
    rw [hmarked]
    have hne : List.range' m.marker.lst m.marker.num ≠ [] := by
      rw [Ne, List.range'_eq_nil_iff]
      omega
    exact work_giveUp_lt hne rfl

/-- Every safe step decreases the rank, with a new base where a pass starts. -/
theorem rank_move (hheap : ManagedHeap memory clusters roots)
    (hnodes : ∀ a, a ∈ nodes ↔ IsObject memory clusters a)
    (h : CollectionInvariant memory roots nodes m) (hsafe : m.Safe allocated)
    (hpass : m.walk ≠ none → PassInvariant nodes base m) (hmove : m.Move allocated clusters m') :
    ∃ base', (m'.walk ≠ none → PassInvariant nodes base' m') ∧
      rank memory nodes base' m' < rank memory nodes base m := by
  have hmanaged := hheap.managed hnodes
  have hiteration (hloop : m.inLoop = true) := Marker.iteration_spec h.shape (hsafe hloop)
  cases hmove with
  | turn hloop hrun =>
    rcases hiteration hloop with ⟨hnone, -⟩ | ⟨s, hsome, hshape, hturn, hsame⟩
    · simp [hnone] at hrun
    · obtain rfl := some.inj (hsome.symm.trans hrun)
      refine ⟨base, fun hwalk ↦ (PassInvariant.turn hmanaged h (hpass hwalk) hturn),
        rank_lt (.inr ⟨rfl, ?_⟩)⟩
      have hwork := work_turn_lt hmanaged h hturn
      rw [work, work, Prod.Lex.toLex_lt_toLex] at hwork
      refine hwork.imp id fun hcost ↦ ⟨hcost.1, .inr ⟨?_, .inr ⟨rfl, ?_⟩⟩⟩
      · have hdead : dead nodes s.alive = dead nodes m.marker.alive := hcost.1
        simp only [phase, hloop, hdead, true_or, if_true]
      · have hlt := hcost.2
        simp only [callLeft, hloop, if_true]
        exact Nat.succ_lt_succ hlt
  | leave hloop hrun =>
    rcases hiteration hloop with ⟨-, hnum, hlist, hstack⟩ | ⟨s, hsome, -⟩
    · refine ⟨base, fun hwalk ↦ ?_, rank_lt (.inr ⟨rfl, .inr ⟨rfl, ?_⟩⟩)⟩
      · have hold := hpass hwalk
        have hstacked : m.marker.saveState.stacked = [] := by
          rw [Marker.stacked, show m.marker.saveState.stackList = 0 from hlist,
            show m.marker.saveState.stack = 0 from hstack]
          rfl
        exact ⟨hold.bounded, .of_empty hstacked hnum,
          hold.quiet.imp id fun hquiet ↦ ⟨hquiet.1, hlist, .inl hstack⟩⟩
      · have hcall : callLeft memory nodes { m with marker := m.marker.saveState, inLoop := false } <
            callLeft memory nodes m := by
          simp [callLeft, hloop]
        cases hwalk : m.walk with
        | some w => exact .inr ⟨by simp only [phase, hwalk]; rfl, .inr ⟨rfl, hcall⟩⟩
        | none =>
          by_cases hflag : m.marker.outOfStackSpace = true
          · have hflag' : m.marker.saveState.outOfStackSpace = true := hflag
            exact .inr ⟨by simp [phase, hwalk, hflag, hflag'], .inr ⟨rfl, hcall⟩⟩
          · have hflag' : ¬ m.marker.saveState.outOfStackSpace = true := hflag
            exact .inl (by simp [phase, hwalk, hloop, hflag'])
    · simp [hsome] at hrun
  | @force ptr stop rest hloop hwalk hlt halive hevent =>
    have hold := hpass (by simp [hwalk])
    obtain ⟨hpos, -⟩ := h.walk_advance hwalk hlt
    obtain ⟨hnum, hlist, hstack, htop⟩ := h.rest hloop
    have hstacked := h.stacked_eq_nil hloop
    unfold call
    rw [h.shape.enter hlist hstack htop]
    refine ⟨base, fun _ ↦ ⟨hold.bounded, .inl ⟨hstacked, rfl, hstack⟩,
      hold.quiet.imp id fun hquiet ↦ ⟨hquiet.1, hlist, .inl hstack⟩⟩,
      rank_lt (.inr ⟨rfl, .inr ⟨rfl, .inr ⟨by simp only [phase, hwalk]; rfl, .inl ?_⟩⟩⟩)⟩
    simp only [walkLeft, hwalk, getD_some, map_cons, sum_cons]
    omega
  | @pass ptr stop rest hloop hwalk hlt hnot =>
    have hold := hpass (by simp [hwalk])
    obtain ⟨hpos, -⟩ := h.walk_advance hwalk hlt
    refine ⟨base, fun _ ↦ ⟨hold.bounded, hold.calm, hold.quiet⟩,
      rank_lt (.inr ⟨rfl, .inr ⟨rfl, .inr ⟨by simp only [phase, hwalk], .inl ?_⟩⟩⟩)⟩
    simp only [walkLeft, hwalk, getD_some, map_cons, sum_cons]
    omega
  | @nextCluster ptr stop rest hloop hwalk hge =>
    have hold := hpass (by simp [hwalk])
    refine ⟨base, fun _ ↦ ⟨hold.bounded, hold.calm, hold.quiet⟩,
      rank_lt (.inr ⟨rfl, .inr ⟨rfl, .inr ⟨by simp only [phase, hwalk], .inl ?_⟩⟩⟩)⟩
    simp only [walkLeft, hwalk, getD_some, map_cons, sum_cons]
    omega
  | endPass hloop hwalk =>
    have hold := hpass (by simp [hwalk])
    refine ⟨base, fun hne ↦ absurd rfl hne, rank_lt (.inr ⟨rfl, .inr ⟨rfl, .inl ?_⟩⟩)⟩
    simp only [phase, hwalk, hloop, Bool.false_eq_true, false_or]
    -- a pass that has marked no object has dropped nothing
    rcases hold.quiet with hmarked | ⟨hflag, -⟩
    · rw [if_pos hmarked]
      split <;> omega
    · rw [hflag, if_neg (by simp)]
      split <;> omega
  | callRoot hloop hwalk hroots hcells | passRoot hloop hwalk hroots hnot =>
    refine ⟨base, fun hne ↦ absurd rfl hne, rank_lt (.inl ?_)⟩
    rw [hroots]
    exact Nat.lt_succ_self _
  | startPass hloop hwalk hroots hflag =>
    obtain ⟨hnum, hlist, hstack, -⟩ := h.rest hloop
    refine ⟨dead nodes m.marker.alive, fun _ ↦ ⟨Nat.le_refl _,
      .of_empty (h.stacked_eq_nil hloop) hnum, .inr ⟨rfl, hlist, .inl hstack⟩⟩,
      rank_lt (.inr ⟨by rw [hroots], .inr ⟨rfl, .inl ?_⟩⟩)⟩
    have hsame : dead nodes
        ({ m.marker with outOfStackSpace := false } : Marker).alive =
          dead nodes m.marker.alive := rfl
    simp only [phase, hwalk, hflag, or_true, if_true, hsame, Nat.lt_irrefl, if_false]
    omega

theorem Collection.after_succ (hstep : m.step allocated clusters = some m') (n : ℕ) :
    m.after allocated clusters (n + 1) = m'.after allocated clusters n := by
  induction n with
  | zero => simp [after, hstep]
  | succ n ih => rw [after, ih, after]

/-- A collection whose steps are all safe stops. -/
theorem exists_stop (hheap : ManagedHeap memory clusters roots)
    (hnodes : ∀ a, a ∈ nodes ↔ IsObject memory clusters a)
    (h : CollectionInvariant memory roots nodes m)
    (hpass : m.walk ≠ none → PassInvariant nodes base m)
    (hsafe : ∀ n, (m.after allocated clusters n).Safe allocated) :
    ∃ n, (m.after allocated clusters n).step allocated clusters = none := by
  induction hrank : rank memory nodes base m using WellFoundedLT.induction generalizing m base with
  | ind r ih =>
    cases hstep : m.step allocated clusters with
    | none => exact ⟨0, hstep⟩
    | some m' =>
      have hmove := move_of_step hstep
      have hsafe₀ : m.Safe allocated := hsafe 0
      obtain ⟨base', hpass', hlt⟩ := rank_move hheap hnodes h hsafe₀ hpass hmove
      have hsafe' (n : ℕ) : (m'.after allocated clusters n).Safe allocated := by
        rw [← after_succ hstep]
        exact hsafe (n + 1)
      obtain ⟨n, hn⟩ := ih _ (hrank ▸ hlt) (h.step hheap hnodes hsafe₀ hmove) hpass' hsafe' rfl
      exact ⟨n + 1, by rw [after_succ hstep]; exact hn⟩

end MicroFramework.Marking
