import PPView.Path.Refinement

/-!
# Runs of calls

What each call is to do to the lists, and when a run of calls does just that. Three kinds of calls
can go wrong: `erase` reads the slot at a negative index, and `pop` of an empty view is such a
call; a new item takes three members from the item whose slot it gets; and `copyN` empties its
target before it looks at its positions.
-/

namespace PPView.Path

variable {ι : Type} (toDate : Int → Rat → String)

open World (slice)

/-- The position of an item. -/
def InList (l : List Item) (index : Int) : Prop := 0 ≤ index ∧ index < l.length

instance (l : List Item) (index : Int) : Decidable (InList l index) :=
  inferInstanceAs (Decidable (_ ∧ _))

namespace Call

/-- The view that a call is on. -/
def target : Call ι → ι
  | appendItem i _ | append i _ | insert i _ _ | erase i _ | pop i | resetLen i _ | copyN i _ _ _
  | subN i _ _ _ | copy i _ | reset i => i

/-- A view is not copied to itself. -/
def Separate : Call ι → Prop
  | copyN i src _ _ | subN i src _ _ | copy i src => src ≠ i
  | _ => True

/-- The list operation of a call: the target's list afterwards. Single values make a new item, and
an index that is out of range changes nothing. -/
def effect (l : ι → List Item) : Call ι → List Item
  | appendItem i item => l i ++ [item]
  | append i fields => l i ++ [Item.fill toDate fields {}]
  | insert i index fields =>
    if InList (l i) index then (l i).insertIdx index.toNat (Item.fill toDate fields {}) else l i
  | erase i index => if InList (l i) index then (l i).eraseIdx index.toNat else l i
  | pop i => (l i).dropLast
  | resetLen i newLen => if 0 ≤ newLen then (l i).take newLen.toNat else l i
  | copyN i src begIdx endIdx =>
    if InList (l src) begIdx ∧ InList (l src) endIdx then slice (l src) begIdx endIdx else l i
  | subN i src begIdx endIdx =>
    if (InList (l i) begIdx ∧ InList (l i) endIdx) ∧ (l src).length = endIdx - begIdx + 1 then
      (l i).take begIdx.toNat ++ l src ++ (l i).drop (begIdx.toNat + (l src).length)
    else l i
  | copy _ src => l src
  | reset _ => []

/-- The call does its list operation, and the other lists stay. -/
def Acts [DecidableEq ι] (c : Call ι) (l l' : ι → List Item) : Prop :=
  l' = Function.update l c.target (c.effect toDate l)

/-- No slot in front of the buffer is read, a new item gets the slot of one whose three members are
those of a new one, and where a position of `copyN` is out of range the target shows already what
there is of them. -/
def Sound (w : World ι) : Call ι → Prop
  | append i _ => (w.spare i).Blank
  | insert i index _ => InList (w.list i) index → (w.spare i).Blank
  | erase _ index => 0 ≤ index
  | pop i => w.list i ≠ []
  | copyN i src begIdx endIdx => InList (w.list src) begIdx ∧ InList (w.list src) endIdx ∨
    w.list i = slice (w.list src) begIdx endIdx
  | _ => True

/-- The call reads no slot in front of the buffer. -/
def InBuffer (l : ι → List Item) : Call ι → Prop
  | erase _ index => 0 ≤ index
  | pop i => l i ≠ []
  | _ => True

/-- The target's list as the code leaves it. -/
def outcome (w : World ι) : Call ι → List Item
  | append i fields => w.list i ++ [Item.fill toDate fields (w.spare i)]
  | insert i index fields =>
    if InList (w.list i) index then
      (w.list i).insertIdx index.toNat (Item.fill toDate fields (w.spare i))
    else w.list i
  | copyN _ src begIdx endIdx => slice (w.list src) begIdx endIdx
  | c => c.effect toDate w.list

variable {toDate} {w : World ι}

/-- A new item is the same in any slot with the members of a new one, and in no other. -/
theorem fill_eq_iff {fields : Fields} {old : Item} :
    Item.fill toDate fields old = Item.fill toDate fields {} ↔ old.Blank := by
  simp [Item.fill, Item.Blank]

theorem insertIdx_inj {α : Type} {l : List α} {k : ℕ} (hk : k ≤ l.length) {x y : α} :
    l.insertIdx k x = l.insertIdx k y ↔ x = y := by
  refine ⟨fun h => ?_, fun h => h ▸ rfl⟩
  have hget := congrArg (·[k]?) h
  simpa [List.getElem?_insertIdx_self, hk] using hget

variable (toDate) in
/-- Where the call stays in the buffer, `Sound` says that the code does the list operation. -/
theorem sound_iff {c : Call ι} :
    c.Sound w ↔ c.InBuffer w.list ∧ c.outcome toDate w = c.effect toDate w.list := by
  cases c with
  | append i fields => simp [Sound, InBuffer, outcome, effect, fill_eq_iff]
  | insert i index fields =>
    simp only [Sound, InBuffer, outcome, effect, true_and]
    split_ifs with hin
    · have := hin.2
      rw [insertIdx_inj (by have := hin.1; omega), fill_eq_iff]
      simp [hin]
    · simp [hin]
  | copyN i src begIdx endIdx =>
    simp only [Sound, InBuffer, outcome, effect, true_and]
    split_ifs with hin
    · simp [hin]
    · simp only [hin, false_or]
      exact eq_comm
  | _ => simp [Sound, InBuffer, outcome]

end Call

namespace World

/-- Views that have no buffer yet. -/
def init : World ι := ⟨fun _ => {}, 0, fun _ => {}⟩

theorem inv_init : (init : World ι).Inv :=
  ⟨fun _ => Int.le_refl 0, fun _ => Int.le_refl 0, fun _ => List.nodup_nil,
    fun _ p hp => by simp [init] at hp, fun _ _ _ => List.disjoint_nil_left _⟩

variable [DecidableEq ι] {w : World ι}

theorem erase_effect (h : w.Inv) (i : ι) {index : Int} (hindex : 0 ≤ index) :
    ∃ code w', w.erase i index = .ok (code, w') ∧ w'.Inv ∧
      w'.list = Function.update w.list i ((Call.erase i index).effect toDate w.list) := by
  have hlen := length_list h i
  obtain ⟨k, rfl⟩ := Int.eq_ofNat_of_zero_le hindex
  by_cases hk : k < (w.list i).length
  · obtain ⟨w', hcall, hinv, hlist⟩ := erase_spec h i hk
    refine ⟨_, w', hcall, hinv, ?_⟩
    rw [hlist, Call.effect, if_pos ⟨hindex, by omega⟩, Int.toNat_natCast]
  · refine ⟨_, w, erase_of_ge i (by omega), h, ?_⟩
    rw [Call.effect, if_neg (fun hin => hk (by have := hin.2; omega)),
      Function.update_eq_self]

theorem pop_effect (h : w.Inv) (i : ι) (hne : w.list i ≠ []) :
    ∃ code w', w.pop i = .ok (code, w') ∧ w'.Inv ∧
      w'.list = Function.update w.list i ((Call.pop i).effect toDate w.list) := by
  have hlen := length_list h i
  have hpos := List.length_pos_of_ne_nil hne
  obtain ⟨w', hcall, hinv, hlist⟩ := erase_spec h i
    (show (w.list i).length - 1 < (w.list i).length by omega)
  refine ⟨0, w', ?_, hinv, ?_⟩
  · rw [pop, ← hcall]
    congr 1
    omega
  · rw [hlist, List.eraseIdx_length_sub_one]
    rfl

theorem insert_outcome (h : w.Inv) (i : ι) (index : Int) (fields : Fields) :
    ∃ code w', w.insert toDate i index fields = .ok (code, w') ∧ w'.Inv ∧
      w'.list = Function.update w.list i ((Call.insert i index fields).outcome toDate w) := by
  have hlen := length_list h i
  by_cases hin : InList (w.list i) index
  · obtain ⟨k, rfl⟩ := Int.eq_ofNat_of_zero_le hin.1
    have hk := hin.2
    obtain ⟨w', hcall, hinv, hlist⟩ := insert_spec h i
      (show k < (w.list i).length by omega) fields
    refine ⟨_, w', hcall, hinv, ?_⟩
    rw [hlist, Call.outcome, if_pos hin, Int.toNat_natCast]
  · refine ⟨1, w, ?_, h, ?_⟩
    · rw [InList] at hin
      rw [insert, if_pos (by omega)]
      rfl
    · rw [Call.outcome, if_neg hin, Function.update_eq_self]

theorem subN_effect (h : w.Inv) {i src : ι} (hsrc : src ≠ i) (begIdx endIdx : Int) :
    ∃ code w', w.subN i src begIdx endIdx = .ok (code, w') ∧ w'.Inv ∧
      w'.list = Function.update w.list i ((Call.subN i src begIdx endIdx).effect toDate w.list) := by
  have hlen := length_list h i
  have hlsrc := length_list h src
  by_cases hin : (InList (w.list i) begIdx ∧ InList (w.list i) endIdx) ∧
      (w.list src).length = endIdx - begIdx + 1
  · obtain ⟨⟨hbeg, hend⟩, hcount⟩ := hin
    obtain ⟨w', hcall, hinv, hlist⟩ :=
      subN_spec h hsrc hbeg.1 hend.1 hbeg.2 hend.2 hcount
    refine ⟨_, w', hcall, hinv, ?_⟩
    rw [hlist, Call.effect, if_pos ⟨⟨hbeg, hend⟩, hcount⟩]
  · refine ⟨1, w, ?_, h, ?_⟩
    · simp only [InList] at hin
      rw [subN]
      split_ifs
      · rfl
      · rfl
      · omega
    · rw [Call.effect, if_neg hin, Function.update_eq_self]

/-- One call that stays in the buffer. -/
theorem call_outcome (h : w.Inv) {c : Call ι} (hsep : c.Separate) (hin : c.InBuffer w.list) :
    ∃ code w', w.call toDate c = .ok (code, w') ∧ w'.Inv ∧
      w'.list = Function.update w.list c.target (c.outcome toDate w) := by
  cases c with
  | appendItem i item =>
    obtain ⟨w', hcall, hinv, hlist⟩ := append_spec h i fun _ => item
    exact ⟨_, w', hcall, hinv, hlist⟩
  | append i fields =>
    obtain ⟨w', hcall, hinv, hlist⟩ := append_spec h i (Item.fill toDate fields)
    exact ⟨_, w', hcall, hinv, hlist⟩
  | insert i index fields => exact insert_outcome toDate h i index fields
  | erase i index => exact erase_effect toDate h i hin
  | pop i => exact pop_effect toDate h i hin
  | resetLen i newLen =>
    obtain ⟨hinv, hlist⟩ := resetLen_spec h i newLen
    exact ⟨_, _, rfl, hinv, hlist⟩
  | copyN i src begIdx endIdx =>
    obtain ⟨w', hcall, hinv, hlist⟩ := copyN_spec h hsep begIdx endIdx
    exact ⟨_, w', hcall, hinv, hlist⟩
  | subN i src begIdx endIdx => exact subN_effect toDate h hsep begIdx endIdx
  | copy i src =>
    obtain ⟨w', hcall, hinv, hlist⟩ := copy_spec h hsep
    exact ⟨_, w', hcall, hinv, hlist⟩
  | reset i =>
    obtain ⟨hinv, hlist⟩ := reset_spec h i
    exact ⟨_, _, rfl, hinv, hlist⟩

theorem call_of_not_inBuffer (h : w.Inv) {c : Call ι} (hin : ¬ c.InBuffer w.list) :
    w.call toDate c = .error .arrayBound := by
  cases c with
  | erase i index => exact erase_of_neg h i (Int.not_le.mp hin)
  | pop i =>
    have hlen := length_list h i
    rw [not_not.mp hin, List.length_nil] at hlen
    exact erase_of_neg h i (by omega)
  | _ => exact absurd trivial hin

/-- One call does its list operation just where it is sound. -/
theorem call_acts_iff (h : w.Inv) {c : Call ι} (hsep : c.Separate) :
    (∃ code w', w.call toDate c = .ok (code, w') ∧ w'.Inv ∧ c.Acts toDate w.list w'.list) ↔
      c.Sound w := by
  rw [Call.sound_iff toDate]
  constructor
  · rintro ⟨code, w', hcall, -, hacts⟩
    by_cases hin : c.InBuffer w.list
    · obtain ⟨code', w'', hcall', -, hlist⟩ := call_outcome toDate h hsep hin
      obtain ⟨-, rfl⟩ := Prod.mk.inj (Except.ok.inj (hcall.symm.trans hcall'))
      have heq := congrFun (hlist.symm.trans hacts) c.target
      exact ⟨hin, by simpa using heq⟩
    · rw [call_of_not_inBuffer toDate h hin] at hcall
      contradiction
  · rintro ⟨hin, heq⟩
    obtain ⟨code, w', hcall, hinv, hlist⟩ := call_outcome toDate h hsep hin
    exact ⟨code, w', hcall, hinv, by rw [Call.Acts, hlist, heq]⟩

/-- From `w` on, every call ends, does its list operation, and leaves `Inv`. -/
def Refines (w : World ι) : List (Call ι) → Prop
  | [] => True
  | c :: calls => ∃ code w', w.call toDate c = .ok (code, w') ∧ w'.Inv ∧
    c.Acts toDate w.list w'.list ∧ w'.Refines calls

/-- Every call is sound in the state that it is made in. -/
def Meets (w : World ι) : List (Call ι) → Prop
  | [] => True
  | c :: calls => c.Sound w ∧ ∀ code w', w.call toDate c = .ok (code, w') → w'.Meets calls

theorem refines_iff_meets (h : w.Inv) {calls : List (Call ι)} (hsep : ∀ c ∈ calls, c.Separate) :
    w.Refines toDate calls ↔ w.Meets toDate calls := by
  induction calls generalizing w with
  | nil => exact Iff.rfl
  | cons c calls ih =>
    obtain ⟨hc, hsep'⟩ := List.forall_mem_cons.mp hsep
    constructor
    · rintro ⟨code, w', hcall, hinv, hacts, hrest⟩
      refine ⟨(call_acts_iff toDate h hc).mp ⟨code, w', hcall, hinv, hacts⟩, fun code' w'' hcall' => ?_⟩
      rw [hcall] at hcall'
      obtain ⟨-, rfl⟩ := Prod.mk.inj (Except.ok.inj hcall')
      exact (ih hinv hsep').mp hrest
    · rintro ⟨hsound, hrest⟩
      obtain ⟨code, w', hcall, hinv, hacts⟩ := (call_acts_iff toDate h hc).mpr hsound
      exact ⟨code, w', hcall, hinv, hacts, (ih hinv hsep').mpr (hrest code w' hcall)⟩

/-- A stay of an hour. -/
def hourFields : Fields :=
  ⟨none, "", "", none, none, 0, 3600, none, "20180101", 0, 3600, 0, 0, 8⟩

theorem refines_pop : (init : World Bool).Refines (fun _ _ => "")
    [.appendItem false {}, .copyN true false 0 0, .pop false, .append false hourFields,
      .erase true 0] := by
  refine (refines_iff_meets _ inv_init (by simp [Call.Separate])).mpr
    ⟨trivial, fun _ _ h₁ => ⟨.inl ?_, fun _ _ h₂ => ⟨?_, fun _ _ h₃ => ⟨?_, fun _ _ h₄ => ?_⟩⟩⟩⟩
  all_goals cases h₁
  · exact ⟨by decide, by decide⟩
  all_goals cases h₂
  · exact List.ne_nil_of_length_pos (by decide)
  all_goals cases h₃
  · show Item.Blank _
    decide
  · exact ⟨Int.le_refl 0, fun _ _ _ => trivial⟩

theorem not_refines_pop : ¬ (init : World Bool).Refines (fun _ _ => "") [.pop false] := by
  rintro ⟨code, w', hcall, -⟩
  cases hcall

/-- The new item gets the idle time of the one that was taken away. -/
theorem not_refines_recycled : ¬ (init : World Bool).Refines (fun _ _ => "")
    [.appendItem false { idle := 1 }, .pop false, .append false hourFields] := by
  rw [refines_iff_meets _ inv_init (by simp [Call.Separate])]
  rintro ⟨-, hpop⟩
  obtain ⟨-, hidle, -⟩ := ((hpop _ _ rfl).2 _ _ rfl).1
  exact Int.one_ne_zero hidle

/-- The only item is lost, although there is none to copy. -/
theorem not_refines_copyN : ¬ (init : World Bool).Refines (fun _ _ => "")
    [.appendItem false {}, .copyN false true 0 0] := by
  rw [refines_iff_meets _ inv_init (by simp [Call.Separate])]
  rintro ⟨-, hcopy⟩
  rcases (hcopy _ _ rfl).1 with ⟨hin, -⟩ | hlist
  · exact absurd hin.2 (by decide)
  · exact absurd (congrArg List.length hlist) (by decide)

end World

end PPView.Path
