import Formulary.Proofs.Dependency

/-!
The build order, counted down one by one.

When a name is taken, the count of each row goes down once for each time the row lists that name, and
a row whose count comes to zero goes to the end of the queue. Here a count that is zero already cannot
be lowered, and names are taken until the queue is empty. On a graph that lists a name several times,
or that has a cycle, the outcome is still that of `order?`, in which a row is lowered at once: a row
misses at least as many as it owes to a name that has not been taken, and it comes to zero with the
last of them.
-/

namespace Formulary

namespace Waiting

/-- The row after one of its dependencies has been taken, and the queue; nothing if none is
missing. -/
def lower? : Waiting → List String → Option (Waiting × List String)
  | ⟨_, _, 0⟩, _ => none
  | ⟨name, needs, n + 1⟩, queue =>
    some (⟨name, needs, n⟩, if n = 0 then queue ++ [name] else queue)

/-- The row and the queue after the given dependencies have been gone through and each that is `taken`
has been counted. -/
def lowerEach? (taken : String) : List String → Waiting → List String →
    Option (Waiting × List String)
  | [], w, queue => some (w, queue)
  | need :: needs, w, queue =>
    if need = taken then
      (w.lower? queue).bind fun (w, queue) => lowerEach? taken needs w queue
    else lowerEach? taken needs w queue

/-- The rows and the queue after a name has been counted in each row. -/
def lowerRows? (taken : String) : List Waiting → List String →
    Option (List Waiting × List String)
  | [], queue => some ([], queue)
  | w :: rows, queue =>
    (w.lowerEach? taken w.needs queue).bind fun (w, queue) =>
      (lowerRows? taken rows queue).map fun (rows, queue) => (w :: rows, queue)

end Waiting

namespace DependencyGraph

/-- Takes names from the queue until it is empty; nothing if a count cannot be lowered, or if more
names than the given number are taken. -/
def takeEach? : Nat → List Waiting → List String → List String →
    Option (List Waiting × List String)
  | _, rows, [], taken => some (rows, taken)
  | 0, _, _ :: _, _ => none
  | n + 1, rows, name :: queue, taken =>
    (Waiting.lowerRows? name rows queue).bind fun (rows, queue) =>
      takeEach? n rows queue (taken ++ [name])

/-- What `order?` gives, counted down one by one. -/
def orderEach? (g : DependencyGraph) (rounds : Nat) :
    Option (Except (List String) (List String)) :=
  let ready := (g.waiting.filter Waiting.isReady).map Waiting.name
  (takeEach? rounds g.waiting ready []).map fun (rows, taken) =>
    if taken.length < g.size then .error ((rows.filter (!·.isReady)).map Waiting.name)
    else .ok taken

end DependencyGraph

/-! ## One name -/

namespace Waiting

variable {taken : String} {rows : List Waiting} {queue : List String}

/-- A row that misses at least what it owes loses that much, and comes to zero with the last of it. -/
theorem lowerEach?_eq : ∀ (needs : List String) (w : Waiting) (queue : List String),
    needs.count taken ≤ w.missing → w.lowerEach? taken needs queue =
      some ({ w with missing := w.missing - needs.count taken },
        if taken ∈ needs ∧ w.missing = needs.count taken then queue ++ [w.name] else queue)
  | [], w, queue, _ => by simp [lowerEach?]
  | need :: needs, ⟨name, deps, missing⟩, queue, h => by
    by_cases hneed : need = taken
    · rw [hneed, List.count_cons_self] at h
      obtain ⟨n, rfl⟩ : ∃ n, missing = n + 1 := Nat.exists_eq_add_of_le' (Nat.le_of_add_left_le h)
      have hle : needs.count taken ≤ n := Nat.le_of_succ_le_succ h
      rw [hneed, List.count_cons_self]
      simp only [lowerEach?, if_true, lower?, Option.bind_some]
      rw [lowerEach?_eq needs _ _ hle]
      -- the count that is lowered now is the last one if none of the rest is `taken`
      by_cases hn : n = 0
      · have hnone : needs.count taken = 0 := Nat.le_zero.mp (hn ▸ hle)
        simp [hn, hnone, List.count_eq_zero.mp hnone]
      · have hmem : n = needs.count taken → taken ∈ needs := fun hn' =>
          List.count_pos_iff.mp (hn' ▸ Nat.pos_of_ne_zero hn)
        simp [hn, and_iff_right_of_imp hmem]
    · have hcount : (need :: needs).count taken = needs.count taken :=
        List.count_cons_of_ne hneed
      rw [hcount] at h ⊢
      simp only [lowerEach?, if_neg hneed]
      rw [lowerEach?_eq needs _ _ h]
      simp [Ne.symm hneed]

theorem isFreed_without {w : Waiting} (h : w.needs.count taken ≤ w.missing) :
    (w.without taken).isFreed taken = true ↔
      taken ∈ w.needs ∧ w.missing = w.needs.count taken := by
  simp only [isFreed, isReady, without, Bool.and_eq_true, List.contains_iff_mem, beq_iff_eq]
  exact and_congr_right fun _ => by omega

/-- Counting one by one comes to what counting at once does, if no row owes more than it misses. -/
theorem lowerRows?_eq : ∀ (rows : List Waiting) (queue : List String),
    (∀ w ∈ rows, w.needs.count taken ≤ w.missing) → lowerRows? taken rows queue =
      some (rows.map (without taken),
        queue ++ ((rows.map (without taken)).filter (isFreed taken)).map Waiting.name)
  | [], queue, _ => by simp [lowerRows?]
  | w :: rows, queue, h => by
    obtain ⟨hw, hrows⟩ := List.forall_mem_cons.mp h
    simp only [lowerRows?]
    rw [lowerEach?_eq w.needs w queue hw, Option.bind_some, lowerRows?_eq rows _ hrows,
      Option.map_some, List.map_cons]
    by_cases hfreed : (w.without taken).isFreed taken = true
    · rw [if_pos ((isFreed_without hw).mp hfreed), List.filter_cons_of_pos hfreed]
      simp [without]
    · rw [if_neg fun hmem => hfreed ((isFreed_without hw).mpr hmem),
        List.filter_cons_of_neg hfreed]
      simp [without]

end Waiting

namespace DependencyGraph

open Relation

variable {g : DependencyGraph} {name : String} {queue taken : List String}

/-- A row misses at least as many as it owes to a name that has not been taken. -/
theorem count_le_missing (hname : name ∉ taken) {w : Waiting} (hw : w ∈ g.rowsAfter taken) :
    w.needs.count name ≤ w.missing := by
  rw [(of_mem_rowsAfter hw).2, countP_missing hname]
  exact Nat.le_add_left _ _

/-! ## All names -/

/-- From a state of the loop, and with room for all names on both sides, names are taken alike. -/
theorem takeEach?_eq : ∀ (n m : Nat) (queue taken : List String), g.Progress queue taken →
    g.size ≤ taken.length + n → g.size ≤ taken.length + m →
      takeEach? n (g.rowsAfter taken) queue taken = some (take m (g.rowsAfter taken) queue taken)
  | n, 0, [], taken, _, _, _ => by simp [takeEach?, take]
  | n, m + 1, [], taken, _, _, _ => by simp [takeEach?, take]
  | _, 0, _ :: _, _, h, _, hm => absurd h.lt_size (Nat.not_lt.mpr hm)
  | 0, _, _ :: _, _, h, hn, _ => absurd h.lt_size (Nat.not_lt.mpr hn)
  | n + 1, m + 1, name :: queue, taken, h, hn, hm => by
    have hname := h.not_mem_taken
    simp only [takeEach?, take]
    rw [Waiting.lowerRows?_eq _ _ fun w hw => count_le_missing hname hw, Option.bind_some,
      map_without_rowsAfter hname]
    refine takeEach?_eq n m _ _ h.take ?_ ?_
    · rw [List.length_append, List.length_singleton]
      omega
    · rw [List.length_append, List.length_singleton]
      omega

/-- So the outcome is that of `order?`, however many names may be taken beyond those of the graph. -/
theorem orderEach?_eq {rounds : Nat} (h : g.size ≤ rounds) : g.orderEach? rounds = some g.order? := by
  have htake := takeEach?_eq rounds g.size _ [] g.progress_start (by simpa) (by simp)
  rw [rowsAfter_nil] at htake
  unfold orderEach? order?
  simp only [htake]
  rfl

/-- An order is found exactly if there is no cycle. It lists every name once, after all that it needs;
without one, the names that are blocked are the fault, in the order of the graph. No count is lowered
below zero on the way there, also where a name is listed several times. -/
theorem order?_exact (hg : g.Closed) :
    ((∃ order, g.order? = .ok order) ↔ Acyclic g.Needs) ∧
    (∀ order, g.order? = .ok order →
      order.Perm g.names ∧ DependenciesFirst (TransGen g.Needs) order) ∧
    (∀ names, g.order? = .error names →
      names.Sublist g.names ∧ ∀ a, a ∈ names ↔ Blocked g.Needs a) ∧
    ∀ rounds, g.size ≤ rounds → g.orderEach? rounds = some g.order? := by
  refine ⟨exists_order?_iff hg, fun order horder => ⟨(order?_eq_ok horder).1, ?_⟩,
    fun names hnames => order?_eq_error hg hnames, fun rounds hrounds => orderEach?_eq hrounds⟩
  exact (ordered_of_order? hg horder).dependenciesFirst (acyclic_of_order? hg horder)

/-- A graph with names that are listed twice; what `b` needs is left open. -/
def laced (needs : List String) : DependencyGraph :=
  ⟨[("a", ["b", "b"]), ("b", needs), ("c", []), ("d", ["c", "a", "c"])], by simp⟩

/-- If `b` needs `c`, there is an order. If it needs `a`, only `c` is free. -/
theorem order?_exact_laced :
    ((laced ["c"]).Closed ∧ (laced ["c"]).order? = .ok ["c", "b", "a", "d"] ∧
      Acyclic (laced ["c"]).Needs ∧
      (laced ["c"]).orderEach? 4 = some (.ok ["c", "b", "a", "d"])) ∧
    (laced ["a"]).Closed ∧ (laced ["a"]).order? = .error ["a", "b", "d"] ∧
      (∀ a, Blocked (laced ["a"]).Needs a ↔ a ∈ ["a", "b", "d"]) ∧
      (laced ["a"]).orderEach? 4 = some (.error ["a", "b", "d"]) := by
  have hfree : (laced ["c"]).Closed := by decide +kernel
  have hcycle : (laced ["a"]).Closed := by decide +kernel
  have hok : (laced ["c"]).order? = .ok ["c", "b", "a", "d"] := by rfl
  have herror : (laced ["a"]).order? = .error ["a", "b", "d"] := by rfl
  obtain ⟨hiff, -, -, heach⟩ := order?_exact hfree
  obtain ⟨-, -, hblocked, heach'⟩ := order?_exact hcycle
  refine ⟨⟨hfree, hok, hiff.mp ⟨_, hok⟩, ?_⟩, hcycle, herror, fun a => ?_, ?_⟩
  · rw [heach 4 (by decide), hok]
  · exact ((hblocked _ herror).2 a).symm
  · rw [heach' 4 (by decide), herror]

end DependencyGraph

end Formulary
