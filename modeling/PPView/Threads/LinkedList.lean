import PPView.Library.Rings

/-!
# Intrusive lists

`linked_list_t` of `linked_list.hpp`. The links are fields of the nodes themselves, and `none`
stands for `_head`. A list is the memory of all nodes: those that are not in it have links too,
which say nothing.
-/

namespace PPView.Threads

abbrev LinkedList (T : Type*) := Links (Option T)

namespace LinkedList

variable {T : Type*} (list : LinkedList T)

def isEmpty : Bool := list.next none = none

/-- `entry`, with `NULL` for `_head`. -/
def entry (node : Option T) : Option T := node

section Writes

variable [DecidableEq T]

/-- The constructor, which leaves the nodes alone. -/
def init : LinkedList T := (list.setPrev none none).setNext none none

def add (node : T) : LinkedList T :=
  let list := list.setPrev (list.next none) (some node)
  let list := list.setNext (some node) (list.next none)
  let list := list.setPrev (some node) none
  list.setNext none (some node)

def del (node : T) : LinkedList T :=
  let list := list.setPrev (list.next (some node)) (list.prev (some node))
  list.setNext (list.prev (some node)) (list.next (some node))

end Writes

/-- The ring goes from `_head` through `nodes`, each once, and back. -/
def Represents (nodes : List T) : Prop := list.IsRing none (nodes.map some)

variable {list} {nodes front back : List T} {node : T}

theorem Represents.isEmpty (h : list.Represents nodes) : list.isEmpty = nodes.isEmpty := by
  have := h.path.next_eq
  cases nodes <;> simp_all [LinkedList.isEmpty]

theorem Represents.entry_next (h : list.Represents nodes) :
    entry (list.next none) = nodes.head? := by
  rw [entry, h.path.next_eq]
  cases nodes <;> rfl

theorem Represents.entry_prev (h : list.Represents nodes) :
    entry (list.prev none) = nodes.getLast? := by
  rw [entry, h.path.prev_eq, List.getLast?_map]
  cases nodes.getLast? <;> rfl

variable [DecidableEq T]

theorem init_represents : list.init.Represents [] :=
  Links.isRing_nil.mpr ⟨by simp [init], by simp [init]⟩

theorem add_represents (h : list.Represents nodes) (hnode : node ∉ nodes) :
    (list.add node).Represents (node :: nodes) := by
  have hfresh : some node ∉ none :: nodes.map some := by simpa using hnode
  have hfirst : list.next none ≠ some node := by
    rw [h.path.next_eq]
    intro heq
    cases nodes <;> simp_all
  refine Links.IsRing.insert h hfresh ⟨?_, ?_⟩ ?_ ?_ (fun n hhead hn => ?_) fun n hnext hn => ?_
  · simp [add]
  · simp [add]
  · simp [add]
  · simp [add, hfirst]
  · simp [add, hhead, hn]
  · simp [add, hnext, hn]

theorem del_represents (h : list.Represents (front ++ node :: back)) :
    (list.del node).Represents (front ++ back) := by
  unfold Represents at *
  rw [List.map_append] at *
  refine Links.IsRing.remove h ?_ ?_ (fun n hn => ?_) fun n hn => ?_
  · simp [del]
  · simp [del]
  · simp [del, hn]
  · simp [del, hn]

end LinkedList

end PPView.Threads
