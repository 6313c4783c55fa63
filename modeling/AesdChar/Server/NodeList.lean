import AesdChar.Base.LinkedList
import AesdChar.Base.Machine

/-!
# The list of threads

`linkedlist.h`, and the loop of `serversocket` as far as it uses the list: it makes a node for every
connection, starts a thread with it, appends the node and sweeps the list, while the threads report
in their nodes that they have finished. All functions of the list hold `listMutex` from their first
to their last access, so each is one step here. `none` is behaviour without a meaning: an access to a
node that was freed, a second `free`, a loop that does not end.

The sweep is there to clean up after every finished thread. Its loop starts with `current` at NULL
instead of `head`, so it cleans up after none (`sweep_reaps_iff`). `freeList`, which nobody calls, frees
every node once, whether its thread has finished or not (`list_freed`).
-/

namespace AesdChar
open BlockHeap LinkedList

def FINISHED : ℤ := 1

/-- `struct Node` -/
structure Node where
  threadId : ℕ
  clientSocket : ℕ
  finished : ℤ
  next : Option ℕ
  deriving DecidableEq, Repr

/-- The memory of the nodes, and `head`. -/
structure NodeList where
  heap : Heap Node
  head : Option ℕ

/-- The calls that clean up after a thread. -/
inductive Cleanup
  | join (threadId : ℕ)
  | close (clientSocket : ℕ)
  | free (node : ℕ)
  deriving DecidableEq, Repr

namespace NodeList
variable (l : NodeList)

def init : NodeList := ⟨.empty, none⟩

/-- Overwrite a node. -/
def setNode (b : ℕ) (node : Node) : Option NodeList :=
  (l.heap.store b 0 [node]).map fun heap => { l with heap := heap }

/-- `free(node)` -/
def freeNode (b : ℕ) : Option NodeList := (l.heap.free b).map fun heap => { l with heap := heap }

/-- When `malloc` has no memory the process exits. -/
def createNode (threadId clientSocket : ℕ) (finished : ℤ) : Option (ℕ × NodeList) :=
  let newNode := (l.heap.alloc 1).1
  ({ l with heap := (l.heap.alloc 1).2 }.setNode newNode ⟨threadId, clientSocket, finished, none⟩).map
    fun l => (newNode, l)

def appendNode (newNode : ℕ) : Option NodeList :=
  match l.head with
  | none => some { l with head := some newNode }
  | some temp => (last Node.next l.heap l.heap.next temp).bind fun temp =>
    (cell l.heap temp).bind fun node => l.setNode temp { node with next := some newNode }

/-- The loop of `removeFinishedThreads` from `current` on, with the calls it makes. -/
def sweepLoop (l : NodeList) : ℕ → Option ℕ → Option (NodeList × List Cleanup)
  | _, none => some (l, [])
  | 0, some _ => none
  | fuel + 1, some current => (cell l.heap current).bind fun node =>
    if node.finished = 1 then
      (l.freeNode current).bind fun l => (l.sweepLoop fuel node.next).map fun r =>
        (r.1, [.join node.threadId, .close node.clientSocket, .free current] ++ r.2)
    else l.sweepLoop fuel node.next

/-- `current` is NULL when the loop starts. -/
def removeFinishedThreads : Option (NodeList × List Cleanup) := l.sweepLoop l.heap.next none

/-- The loop ends when `head` is NULL. -/
def freeList : Option NodeList :=
  (release Node.next l.heap l.heap.next l.head).map fun heap => ⟨heap, none⟩

end NodeList

/-! ### The loop of the main thread -/

/-- Where the main thread is. -/
inductive LoopPoint
  | accept
  | append (myNode : ℕ)
  | sweep
  | stopped
  deriving DecidableEq, Repr

structure AcceptLoop where
  nodes : NodeList
  point : LoopPoint

/-- `accept`: the descriptor of the connection, and the new thread if `pthread_create` could start
one. `finish`: the thread of a node sets `finished`. -/
inductive LoopAction
  | accept (clientSocket : ℕ) (threadId : Option ℕ)
  | append
  | sweep
  | finish (myThread : ℕ)
  deriving DecidableEq, Repr

namespace AcceptLoop
variable (s : AcceptLoop)

def init : AcceptLoop := ⟨.init, .accept⟩

/-- Take a connection: make its node and start its thread, or else give up. -/
def accept (clientSocket : ℕ) (threadId : Option ℕ) : Option (AcceptLoop × List Cleanup) :=
  (s.nodes.createNode 0 clientSocket 0).bind fun (myNode, l) =>
    match threadId with
    | some threadId => (l.setNode myNode ⟨threadId, clientSocket, 0, none⟩).map fun l =>
        (⟨l, .append myNode⟩, [])
    | none => (l.freeNode myNode).map fun l => (⟨l, .stopped⟩, [.close clientSocket, .free myNode])

/-- A thread that was started, and has not finished yet, finishes. -/
def finish (myThread : ℕ) : Option AcceptLoop :=
  (cell s.nodes.heap myThread).bind fun node =>
    if node.finished = FINISHED then none
    else (s.nodes.setNode myThread { node with finished := FINISHED }).map fun l =>
      { s with nodes := l }

/-- One step, with the calls to clean up that it makes. -/
def step : LoopAction → Option (AcceptLoop × List Cleanup)
  | .accept clientSocket threadId => if s.point = .accept then s.accept clientSocket threadId else none
  | .append =>
    match s.point with
    | .append myNode => (s.nodes.appendNode myNode).map fun l => (⟨l, .sweep⟩, [])
    | _ => none
  | .sweep =>
    if s.point = .sweep then s.nodes.removeFinishedThreads.map fun r => (⟨r.1, .accept⟩, r.2) else none
  | .finish myThread => (s.finish myThread).map fun s => (s, [])

end AcceptLoop

def loopMachine : Machine AcceptLoop LoopAction (List Cleanup) := ⟨AcceptLoop.step⟩

/-- The node that was made and is not appended yet. -/
def AcceptLoop.fresh (s : AcceptLoop) : List ℕ :=
  match s.point with
  | .append myNode => [myNode]
  | _ => []

/-- The node that an action appends. -/
def AcceptLoop.appends (s : AcceptLoop) : LoopAction → List ℕ
  | .append => s.fresh
  | .accept .. | .sweep | .finish _ => []

/-- The nodes that were appended, in this order. -/
def appended (acts : List LoopAction) : List ℕ := loopMachine.collect AcceptLoop.appends .init acts

/-! ### What the functions do to a list -/

namespace NodeList
variable {l l' : NodeList} {bs : List ℕ} {b : ℕ} {node node' : Node}

/-- The nodes that are reached from `head`. -/
def Lists (l : NodeList) (bs : List ℕ) : Prop := Chain Node.next l.heap l.head bs

theorem setNode_eq (hb : l.heap.Has b 1 [node]) (node' : Node) :
    ∃ l', l.setNode b node' = some l' ∧ l'.head = l.head ∧ l'.heap.Has b 1 [node'] ∧
      Heap.AgreesOff b l.heap l'.heap := by
  obtain ⟨heap, hstore, hhas, hoff⟩ := hb.overwrite (show [node'].length = [node].length from rfl)
  refine ⟨{ l with heap := heap }, ?_, rfl, hhas, hoff⟩
  unfold setNode
  rw [hstore]
  rfl

theorem Lists.setNode (hl : l.Lists bs) (hb : l.heap.Has b 1 [node]) (node' : Node)
    (hnext : node'.next = node.next) :
    ∃ l', l.setNode b node' = some l' ∧ l'.Lists bs ∧ l'.heap.Has b 1 [node'] ∧
      Heap.AgreesOff b l.heap l'.heap := by
  obtain ⟨l', hset, hhead, hhas, hoff⟩ := setNode_eq hb node'
  refine ⟨l', hset, ?_, hhas, hoff⟩
  unfold Lists
  rw [hhead]
  exact hl.update hoff hb hhas hnext

theorem createNode_eq (l : NodeList) (threadId clientSocket : ℕ) (finished : ℤ) :
    ∃ b l', l.createNode threadId clientSocket finished = some (b, l') ∧ ¬ l.heap.Live b ∧
      l'.head = l.head ∧ l'.heap.Has b 1 [⟨threadId, clientSocket, finished, none⟩] ∧
      ∀ c, c ≠ b → l'.heap.block c = l.heap.block c := by
  obtain ⟨heap, hstore, hhas, hoff⟩ :=
    (Heap.has_alloc l.heap 1).store [(⟨threadId, clientSocket, finished, none⟩ : Node)] (by simp)
  refine ⟨(l.heap.alloc 1).1, { l with heap := heap }, ?_, ?_, rfl, hhas, fun c hc => ?_⟩
  · unfold createNode NodeList.setNode
    simp only [List.length_nil] at hstore
    simp only [hstore, Option.map_some]
  · intro hlive
    exact hlive (l.heap.fresh _ (Nat.le_refl _))
  · rw [hoff.block c hc]
    exact Heap.alloc_block_of_ne _ _ hc

theorem Lists.appendNode (hl : l.Lists bs) (hb : l.heap.Has b 1 [node]) (hnext : node.next = none)
    (hnew : b ∉ bs) :
    ∃ l', l.appendNode b = some l' ∧ l'.Lists (bs ++ [b]) ∧
      ∀ c, l'.heap.Live c ↔ l.heap.Live c := by
  unfold NodeList.appendNode
  rcases List.eq_nil_or_concat' bs with rfl | ⟨as, c, rfl⟩
  · have hhead : l.head = none := hl
    rw [hhead]
    exact ⟨_, rfl, ⟨rfl, node, hb, hnext⟩, fun _ => Iff.rfl⟩
  · obtain ⟨temp, hhead⟩ : ∃ temp, l.head = some temp := by
      cases as with
      | nil => exact ⟨c, hl.1⟩
      | cons a as => exact ⟨a, hl.1⟩
    have hlen := hl.length_le
    rw [List.length_append, List.length_singleton] at hlen
    have hchain : Chain Node.next l.heap l.head (as ++ [c]) := hl
    rw [hhead] at hchain ⊢
    obtain ⟨hlast, node', hc, -⟩ := hchain.last_eq (Nat.lt_of_succ_le hlen)
    obtain ⟨l', hset, hhead', hc', hoff⟩ := setNode_eq hc { node' with next := some b }
    have hbc : b ≠ c := by
      rintro rfl
      simp at hnew
    refine ⟨l', ?_, ?_, hoff.live_iff hc.live hc'.live⟩
    · simp only [hlast, cell_of_has hc, Option.bind_some]
      exact hset
    · unfold Lists
      rw [hhead', hhead]
      exact hchain.concat hoff hc' rfl (hb.congr (hoff.block b hbc)) hnext

theorem freeNode_eq (hb : l.heap.Live b) :
    ∃ l', l.freeNode b = some l' ∧ l'.head = l.head ∧ l'.heap.block b = none ∧
      ∀ c, c ≠ b → l'.heap.block c = l.heap.block c := by
  obtain ⟨heap, hfree, hdead, -, -, hoff⟩ := Heap.free_of_live hb
  refine ⟨{ l with heap := heap }, ?_, rfl, hdead, hoff⟩
  unfold freeNode
  rw [hfree]
  rfl

/-- The sweep starts at NULL, so it looks at no node. -/
theorem removeFinishedThreads_eq (l : NodeList) : l.removeFinishedThreads = some (l, []) := by
  unfold removeFinishedThreads sweepLoop
  rfl

end NodeList

/-! ### What the list holds -/

namespace AcceptLoop
variable {s s' : AcceptLoop} {bs : List ℕ}

/-- The list holds `bs`, and all nodes there are but the one that waits to be appended, which has no
link. -/
structure Holds (s : AcceptLoop) (bs : List ℕ) : Prop where
  lists : s.nodes.Lists bs
  live : ∀ b, s.nodes.heap.Live b ↔ b ∈ bs ++ s.fresh
  unlinked : ∀ b ∈ s.fresh, b ∉ bs ∧ ∃ node, s.nodes.heap.Has b 1 [node] ∧ node.next = none

theorem holds_init : init.Holds [] where
  lists := rfl
  live b := by simp [init, fresh, NodeList.init, Heap.Live, Heap.empty]
  unlinked b hb := by simp [init, fresh] at hb

theorem Holds.has (hs : s.Holds bs) {b : ℕ} (hlive : s.nodes.heap.Live b) :
    ∃ node, s.nodes.heap.Has b 1 [node] := by
  rcases List.mem_append.1 ((hs.live b).1 hlive) with hb | hb
  · exact hs.lists.has hb
  · obtain ⟨-, node, hnode, -⟩ := hs.unlinked b hb
    exact ⟨node, hnode⟩

theorem Holds.accept (hs : s.Holds bs) (hpoint : s.point = .accept) (clientSocket : ℕ)
    (threadId : Option ℕ) : ∃ s' o, s.accept clientSocket threadId = some (s', o) ∧ s'.Holds bs := by
  obtain ⟨b, l, hcreate, hnew, hhead, hb, hoff⟩ :=
    NodeList.createNode_eq s.nodes 0 clientSocket 0
  have hlive := hs.live
  rw [fresh, hpoint, List.append_nil] at hlive
  have hb_mem : b ∉ bs := fun hmem => hnew ((hlive b).2 hmem)
  have hlists : l.Lists bs := by
    unfold NodeList.Lists
    rw [hhead]
    exact hs.lists.congr fun c hc => hoff c fun hcb => hb_mem (hcb ▸ hc)
  unfold AcceptLoop.accept
  rw [hcreate, Option.bind_some]
  cases threadId with
  | some threadId =>
    obtain ⟨l', hset, hlists', hb', hoff'⟩ :=
      hlists.setNode hb ⟨threadId, clientSocket, 0, none⟩ rfl
    refine ⟨⟨l', .append b⟩, [], by simp only [hset, Option.map_some], hlists', fun c => ?_, ?_⟩
    · rw [hoff'.live_iff hb.live hb'.live, fresh, List.mem_append, List.mem_singleton]
      by_cases hcb : c = b
      · exact iff_of_true (hcb ▸ hb.live) (Or.inr hcb)
      · rw [Heap.Live, hoff c hcb, or_iff_left hcb]
        exact hlive c
    · intro c hc
      obtain rfl := List.mem_singleton.1 hc
      exact ⟨hb_mem, _, hb', rfl⟩
  | none =>
    obtain ⟨l', hfree, hhead', hdead, hoff'⟩ := NodeList.freeNode_eq hb.live
    refine ⟨⟨l', .stopped⟩, [.close clientSocket, .free b], by simp only [hfree, Option.map_some],
      ?_, fun c => ?_, fun c hc => by simp [fresh] at hc⟩
    · unfold NodeList.Lists
      rw [hhead']
      exact hlists.congr fun c hc => hoff' c fun hcb => hb_mem (hcb ▸ hc)
    · rw [fresh, List.append_nil]
      by_cases hcb : c = b
      · subst hcb
        exact iff_of_false (not_not.2 hdead) hb_mem
      · rw [Heap.Live, hoff' c hcb, hoff c hcb]
        exact hlive c

theorem Holds.append (hs : s.Holds bs) {b : ℕ} (hpoint : s.point = .append b) :
    ∃ l, s.nodes.appendNode b = some l ∧ Holds ⟨l, .sweep⟩ (bs ++ [b]) := by
  have hfresh : s.fresh = [b] := by rw [fresh, hpoint]
  obtain ⟨hnew, node, hb, hnext⟩ := hs.unlinked b (by rw [hfresh]; exact List.mem_singleton_self b)
  obtain ⟨l, happend, hlists, hlive⟩ := hs.lists.appendNode hb hnext hnew
  refine ⟨l, happend, hlists, fun c => ?_, fun c hc => by simp [fresh] at hc⟩
  rw [hlive, hs.live, hfresh, fresh, List.append_nil]

theorem Holds.finish (hs : s.Holds bs) {b : ℕ} (hfinish : s.finish b = some s') : s'.Holds bs := by
  unfold AcceptLoop.finish at hfinish
  obtain ⟨node, hcell, hfinish⟩ := Option.bind_eq_some_iff.1 hfinish
  obtain ⟨-, hfinish⟩ := Option.ite_none_left_eq_some.1 hfinish
  obtain ⟨node', hb⟩ := hs.has (live_of_cell hcell)
  obtain rfl := Option.some.inj ((cell_of_has hb).symm.trans hcell)
  obtain ⟨l, hset, hlists, hb', hoff⟩ :=
    hs.lists.setNode hb { node' with finished := FINISHED } rfl
  rw [hset, Option.map_some, Option.some.injEq] at hfinish
  subst hfinish
  refine ⟨hlists, fun c => ?_, fun c hc => ?_⟩
  · rw [hoff.live_iff hb.live hb'.live]
    exact hs.live c
  · obtain ⟨hnew, node, hc', hnext⟩ := hs.unlinked c hc
    refine ⟨hnew, ?_⟩
    by_cases hcb : c = b
    · subst hcb
      obtain rfl := has_unique hb hc'
      exact ⟨_, hb', hnext⟩
    · exact ⟨node, hc'.congr (hoff.block c hcb), hnext⟩

theorem Holds.step (hs : s.Holds bs) {a : LoopAction} {o : List Cleanup}
    (hstep : s.step a = some (s', o)) : s'.Holds (bs ++ s.appends a) := by
  cases a with
  | accept clientSocket threadId =>
    obtain ⟨hpoint, hstep⟩ := Option.ite_none_right_eq_some.1 hstep
    obtain ⟨t, u, haccept, ht⟩ := hs.accept hpoint clientSocket threadId
    obtain ⟨rfl, -⟩ := Prod.mk.inj (Option.some.inj (haccept.symm.trans hstep))
    rw [appends, List.append_nil]
    exact ht
  | append =>
    unfold AcceptLoop.step at hstep
    cases hpoint : s.point with
    | append b =>
      obtain ⟨l, happend, hl⟩ := hs.append hpoint
      simp only [hpoint, happend, Option.map_some, Option.some.injEq, Prod.mk.injEq] at hstep
      rw [← hstep.1, appends, fresh, hpoint]
      exact hl
    | accept => simp [hpoint] at hstep
    | sweep => simp [hpoint] at hstep
    | stopped => simp [hpoint] at hstep
  | sweep =>
    obtain ⟨hpoint, hstep⟩ := Option.ite_none_right_eq_some.1 hstep
    rw [s.nodes.removeFinishedThreads_eq, Option.map_some, Option.some.injEq, Prod.mk.injEq] at hstep
    obtain ⟨rfl, -⟩ := hstep
    rw [appends, List.append_nil]
    refine ⟨hs.lists, fun b => ?_, fun b hb => by simp [fresh] at hb⟩
    rw [hs.live, fresh, fresh, hpoint]
  | finish myThread =>
    obtain ⟨t, hfinish, ht⟩ := Option.map_eq_some_iff.1 hstep
    obtain ⟨rfl, -⟩ := Prod.mk.inj ht
    rw [appends, List.append_nil]
    exact hs.finish hfinish

end AcceptLoop

theorem run_holds {guard : AcceptLoop → LoopAction → Prop} {acts : List LoopAction}
    {outs : List (List Cleanup)} {s : AcceptLoop}
    (hrun : loopMachine.Run guard .init acts outs s) : s.Holds (appended acts) := by
  induction hrun with
  | nil => exact AcceptLoop.holds_init
  | snoc hrun hguard hstep ih =>
    unfold appended at ih ⊢
    rw [hrun.collect_concat _ hstep]
    exact ih.step hstep

/-! ### What a sweep is for -/

namespace NodeList

/-- The thread of the node has finished. -/
def Finished (l : NodeList) (b : ℕ) : Prop := ∃ node ∈ cell l.heap b, node.finished = 1

instance (l : NodeList) (b : ℕ) : Decidable (l.Finished b) :=
  inferInstanceAs (Decidable (∃ node ∈ _, _))

/-- Everything that cleaning up after a node takes. -/
def cleanup (l : NodeList) (b : ℕ) : List Cleanup :=
  match cell l.heap b with
  | some node => [.join node.threadId, .close node.clientSocket, .free b]
  | none => []

/-- A sweep of the list `bs` leaves the nodes that have not finished, in their order, and cleans up
after each of the others once: its thread is joined, its socket closed and its memory freed. -/
def Reaps (l : NodeList) (bs : List ℕ) : Prop :=
  ∃ l' calls, l.removeFinishedThreads = some (l', calls) ∧
    l'.Lists (bs.filter fun b => ¬ l.Finished b) ∧
    calls.Perm ((bs.filter fun b => l.Finished b).flatMap l.cleanup) ∧
    ∀ b ∈ bs, l.Finished b → ¬ l'.heap.Live b

theorem Lists.reaps_iff {l : NodeList} {bs : List ℕ} (hl : l.Lists bs) :
    l.Reaps bs ↔ ∀ b ∈ bs, ¬ l.Finished b := by
  unfold Reaps
  rw [l.removeFinishedThreads_eq]
  constructor
  · rintro ⟨l', calls, heq, -, -, hdead⟩ b hb hfinished
    obtain ⟨rfl, -⟩ := Prod.mk.inj (Option.some.inj heq)
    obtain ⟨node, hnode⟩ := hl.has hb
    exact hdead b hb hfinished hnode.live
  · intro hnone
    have hkept : (bs.filter fun b => ¬ l.Finished b) = bs := by
      rw [List.filter_eq_self]
      intro b hb
      simpa using hnone b hb
    have hgone : (bs.filter fun b => l.Finished b) = [] := by
      rw [List.filter_eq_nil_iff]
      intro b hb
      simpa using hnone b hb
    refine ⟨l, [], rfl, ?_, ?_, fun b hb hfinished => absurd hfinished (hnone b hb)⟩
    · rw [hkept]
      exact hl
    · rw [hgone]
      exact List.Perm.nil

end NodeList

/-- A sweep closes the connection of every thread that has finished before. -/
def ClosesFinished (s : AcceptLoop) (a : LoopAction) : Prop :=
  a = .sweep → ∀ b node, cell s.nodes.heap b = some node → node.finished = 1 →
    ∃ r, s.step .sweep = some r ∧ .close node.clientSocket ∈ r.2

/-- No thread has finished when the list is swept. -/
def NoneFinished (s : AcceptLoop) (a : LoopAction) : Prop := a = .sweep → ∀ b, ¬ s.nodes.Finished b

theorem closesFinished_iff {s : AcceptLoop} {a : LoopAction} :
    ClosesFinished s a ↔ NoneFinished s a := by
  unfold ClosesFinished NoneFinished
  refine imp_congr_right fun _ => ⟨?_, ?_⟩
  · rintro h b ⟨node, hcell, hfinished⟩
    obtain ⟨r, hstep, hclose⟩ := h b node hcell hfinished
    obtain ⟨-, hstep⟩ := Option.ite_none_right_eq_some.1 hstep
    rw [s.nodes.removeFinishedThreads_eq, Option.map_some, Option.some.injEq] at hstep
    rw [← hstep] at hclose
    exact absurd hclose (by simp)
  · intro h b node hcell hfinished
    exact absurd ⟨node, hcell, hfinished⟩ (h b)

/-- **When a sweep cleans up**: in every state that accepts, finishes and sweeps lead to, the list
is the nodes that were appended, and a sweep cleans up exactly when none of them has finished; the
sweeps of a run close the connections of all threads that have finished exactly when there never is
one. -/
theorem sweep_reaps_iff {acts : List LoopAction} {outs : List (List Cleanup)} {s : AcceptLoop}
    (hrun : loopMachine.Run (fun _ _ => True) .init acts outs s) :
    s.nodes.Lists (appended acts) ∧
    (s.nodes.Reaps (appended acts) ↔ ∀ b ∈ appended acts, ¬ s.nodes.Finished b) ∧
    (loopMachine.Run ClosesFinished .init acts outs s ↔
      loopMachine.Run NoneFinished .init acts outs s) := by
  have hholds := run_holds hrun
  refine ⟨hholds.lists, hholds.lists.reaps_iff, ?_, ?_⟩
  · exact fun h => h.mono fun _ _ => closesFinished_iff.1
  · exact fun h => h.mono fun _ _ => closesFinished_iff.2

theorem sweep_reaps_iff_none : ∃ s : AcceptLoop, s.nodes.Lists [0, 1] ∧ s.nodes.Reaps [0, 1] := by
  set acts : List LoopAction :=
    [.accept 5 (some 71), .append, .sweep, .accept 6 (some 72), .append]
  obtain ⟨⟨s, outs⟩, hexec⟩ := Option.isSome_iff_exists.1
    (show (loopMachine.execGuarded (fun _ _ => True) .init acts).isSome by decide +kernel)
  have hnone : (loopMachine.execGuarded (fun _ _ => True) .init acts).map (fun r =>
      decide (∀ b ∈ ([0, 1] : List ℕ), ¬ r.1.nodes.Finished b)) = some true := by decide +kernel
  rw [hexec, Option.map_some, Option.some.injEq, decide_eq_true_iff] at hnone
  obtain ⟨hlists, hreaps, -⟩ := sweep_reaps_iff (Machine.Run.of_execGuarded hexec)
  have hacts : appended acts = [0, 1] := by decide +kernel
  rw [hacts] at hlists hreaps
  exact ⟨s, hlists, hreaps.2 hnone⟩

/-- One thread has finished before the list is swept. -/
theorem finished_not_reaped : ¬ ∀ (s : AcceptLoop) (bs : List ℕ),
    loopMachine.Reachable (fun _ _ => True) .init s → s.nodes.Lists bs → s.nodes.Reaps bs := by
  intro h
  set acts : List LoopAction := [.accept 5 (some 71), .append, .finish 0]
  obtain ⟨⟨s, outs⟩, hexec⟩ := Option.isSome_iff_exists.1
    (show (loopMachine.execGuarded (fun _ _ => True) .init acts).isSome by decide +kernel)
  have hfinished : (loopMachine.execGuarded (fun _ _ => True) .init acts).map (fun r =>
      decide (r.1.nodes.Finished 0)) = some true := by decide +kernel
  rw [hexec, Option.map_some, Option.some.injEq, decide_eq_true_iff] at hfinished
  have hrun := Machine.Run.of_execGuarded hexec
  have hlists := (run_holds hrun).lists
  have hacts : appended acts = [0] := by decide +kernel
  rw [hacts] at hlists
  exact hlists.reaps_iff.1 (h s [0] ⟨acts, outs, hrun⟩ hlists) 0 (by simp) hfinished

/-! ### Freeing the list -/

namespace AcceptLoop
variable {s s' : AcceptLoop} {bs : List ℕ} {l : NodeList}

theorem Holds.run {guard : AcceptLoop → LoopAction → Prop} {acts : List LoopAction}
    {outs : List (List Cleanup)} (hs : s.Holds bs) (hrun : loopMachine.Run guard s acts outs s') :
    s'.Holds (bs ++ loopMachine.collect AcceptLoop.appends s acts) := by
  induction hrun with
  | nil => simpa [Machine.collect] using hs
  | snoc hrun _ hstep ih =>
    rw [hrun.collect_concat _ hstep, ← List.append_assoc]
    exact ih.step hstep

theorem Holds.freeList (hs : s.Holds bs) : ∃ l, s.nodes.freeList = some l ∧
    l.heap.freed = s.nodes.heap.freed ++ bs ∧ Holds ⟨l, s.point⟩ [] := by
  have hlists : Chain Node.next s.nodes.heap s.nodes.head bs := hs.lists
  obtain ⟨heap, hrelease, hfreed, hblock⟩ := hlists.release_eq hlists.length_le
  refine ⟨⟨heap, none⟩, ?_, hfreed, rfl, fun b => ?_, fun b hb => ?_⟩
  · unfold NodeList.freeList
    rw [hrelease]
    rfl
  · have hlive := hs.live b
    unfold Heap.Live at hlive ⊢
    simp only [hblock]
    by_cases hb : b ∈ bs
    · rw [if_pos hb, List.nil_append]
      refine iff_of_false (fun h => h rfl) fun hfresh => ?_
      exact (hs.unlinked b hfresh).1 hb
    · rw [if_neg hb, hlive]
      simp [hb, fresh]
  · obtain ⟨hnew, node, hnode, hnext⟩ := hs.unlinked b hb
    refine ⟨List.not_mem_nil, node, hnode.congr ?_, hnext⟩
    rw [hblock, if_neg hnew]

theorem finish_eq_none (hb : ¬ s.nodes.heap.Live b) : s.finish b = none := by
  unfold AcceptLoop.finish
  cases hcell : cell s.nodes.heap b with
  | none => rfl
  | some node => exact absurd (live_of_cell hcell) hb

end AcceptLoop

/-- **What `freeList` does**, wherever the loop is: every node that was appended is freed once, in the
order of the list, and the list starts anew; but no thread of these nodes may run any more, since its
report would go to freed memory. -/
theorem list_freed {acts : List LoopAction} {outs : List (List Cleanup)} {s : AcceptLoop}
    (hrun : loopMachine.Run (fun _ _ => True) .init acts outs s) :
    ∃ l, s.nodes.freeList = some l ∧ l.heap.freed = s.nodes.heap.freed ++ appended acts ∧
      (∀ b, l.heap.Live b ↔ b ∈ s.fresh) ∧
      (∀ b ∈ appended acts, AcceptLoop.finish ⟨l, s.point⟩ b = none) ∧
      ∀ acts' outs' s', loopMachine.Run (fun _ _ => True) ⟨l, s.point⟩ acts' outs' s' →
        s'.nodes.Lists (loopMachine.collect AcceptLoop.appends ⟨l, s.point⟩ acts') := by
  have hholds := run_holds hrun
  obtain ⟨l, hfree, hfreed, hl⟩ := hholds.freeList
  have hlive : ∀ b, l.heap.Live b ↔ b ∈ s.fresh := hl.live
  refine ⟨l, hfree, hfreed, hlive, fun b hb => ?_, fun acts' outs' s' hrun' => ?_⟩
  · refine AcceptLoop.finish_eq_none fun hlive' => ?_
    exact (hholds.unlinked b ((hlive b).1 hlive')).1 hb
  · have hholds' := hl.run hrun'
    rw [List.nil_append] at hholds'
    exact hholds'.lists

theorem list_freed_early : ∃ s l, loopMachine.Reachable (fun _ _ => True) .init s ∧
    s.nodes.freeList = some l ∧ l.heap.freed = [0, 1] ∧
      (∃ s', s.finish 1 = some s') ∧ AcceptLoop.finish ⟨l, s.point⟩ 1 = none := by
  set acts : List LoopAction :=
    [.accept 5 (some 71), .append, .finish 0, .sweep, .accept 6 (some 72), .append]
  obtain ⟨⟨s, outs⟩, hexec⟩ := Option.isSome_iff_exists.1
    (show (loopMachine.execGuarded (fun _ _ => True) .init acts).isSome by decide +kernel)
  have heval : (loopMachine.execGuarded (fun _ _ => True) .init acts).map (fun r =>
      (r.1.nodes.heap.freed, (r.1.finish 1).isSome)) = some ([], true) := by decide +kernel
  rw [hexec, Option.map_some, Option.some.injEq, Prod.mk.injEq] at heval
  have hrun := Machine.Run.of_execGuarded hexec
  have hacts : appended acts = [0, 1] := by decide +kernel
  obtain ⟨l, hfree, hfreed, -, hnone, -⟩ := list_freed hrun
  rw [hacts] at hfreed hnone
  rw [heval.1, List.nil_append] at hfreed
  exact ⟨s, l, ⟨acts, outs, hrun⟩, hfree, hfreed, Option.isSome_iff_exists.1 heval.2,
    hnone 1 (by simp)⟩

end AesdChar
