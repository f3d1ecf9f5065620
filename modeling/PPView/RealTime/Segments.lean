import PPView.RealTime.Feasible
import PPView.RealTime.RealTimeTraffic

/-!
# Segments with new traffic

A segment between two key items that can be replaced is feasible for its new traffic. Its first
item is still reached at the same time, and its last one departs as before or when it closes.
-/

namespace PPView.RealTime

/-- An item without its times and its traffic. -/
def Item.plain (p : Item) : Item :=
  { p.untimed with arriveTraffic := none, departTraffic := none }

theorem map_plain_of_untimed {path path' : List Item}
    (h : path'.map Item.untimed = path.map Item.untimed) :
    path'.map Item.plain = path.map Item.plain := by
  have hcomp (l : List Item) : l.map Item.plain = (l.map Item.untimed).map Item.plain := by
    rw [List.map_map]
    rfl
  rw [hcomp, h, ← hcomp]

/-- What holds of the items whatever their times and traffic holds when these have changed. -/
theorem forall_mem_of_plain {path path' : List Item} {P : Item → Prop}
    (h : path'.map Item.plain = path.map Item.plain) (hP : ∀ p ∈ path, P p.plain) :
    ∀ p ∈ path', P p.plain := by
  intro p hp
  have hmem : p.plain ∈ path.map Item.plain := h ▸ List.mem_map_of_mem hp
  obtain ⟨q, hq, heq⟩ := List.mem_map.mp hmem
  exact heq ▸ hP q hq

/-- No stay is required to have a negative duration. -/
def Nonneg (p : Item) : Prop := 0 ≤ p.durS.min ∧ 0 ≤ p.durS.zip

variable {getTraffic : String → String → String → Option TrafficItem}
  {a z : Item} {mid out : List Item}

/-! ## From the front -/

/-- One item gets its new times. -/
theorem changeTrafPosFrom_step {a p : Item} {rest out : List Item} (hp : InWindow p)
    (hsq : Squeezable p) (hpdur : Nonneg p)
    (hrun : changeTrafPosFrom getTraffic a (p :: rest) = some out) :
    ∃ traffic p' rest', out = { a with departTraffic := traffic } :: rest' ∧
      changeTrafPosFrom getTraffic p' rest = some rest' ∧ InWindow p' ∧ Squeezable p' ∧
      p'.plain = p.plain ∧ p'.departTraffic = p.departTraffic ∧
      (p.isCut = true → p'.departTime = p.closeTime) ∧
      ∀ traffic', Leg { a with departTraffic := traffic }
        { p' with departTraffic := traffic' } := by
  obtain ⟨hopen, hstay, hclose⟩ := hp
  obtain ⟨hmin, hzip⟩ := hpdur
  rw [changeTrafPosFrom] at hrun
  dsimp only at hrun
  split_ifs at hrun with hcut hlate hlate
  all_goals
    obtain ⟨rest', hrest, rfl⟩ := Option.map_eq_some_iff.mp hrun
    refine ⟨_, _, rest', rfl, hrest, ?_, fun hkey => ?_, rfl, rfl, fun hcut' => ?_,
      fun _ => ⟨rfl, Int.le_max_left _ _⟩⟩
  · dsimp only [InWindow, Item.setTimes]
    omega
  · have hkey' : p.isKey = false := hkey
    rw [Item.isCut, hkey'] at hcut
    contradiction
  · dsimp only [Item.setTimes]
    omega
  · rw [Item.getDur] at hlate
    dsimp only [InWindow, Item.setTimes, Item.getDur]
    omega
  · have := hsq hkey
    dsimp only [Item.setTimes, Item.getDur] at this ⊢
    omega
  · contradiction

/-- The new traffic from the item `a` to the item `z`; a stay at a key item lasts until it
closes. -/
theorem changeTrafPosFrom_spec (hstays : ∀ p ∈ mid ++ [z], InWindow p)
    (hsqueeze : ∀ p ∈ mid ++ [z], Squeezable p) (hdur : ∀ p ∈ mid ++ [z], Nonneg p)
    (hrun : changeTrafPosFrom getTraffic a (mid ++ [z]) = some out) :
    ∃ traffic mid' z', out = { a with departTraffic := traffic } :: (mid' ++ [z']) ∧
      out.IsChain Leg ∧ (∀ p ∈ mid' ++ [z'], InWindow p) ∧ (∀ p ∈ mid' ++ [z'], Squeezable p) ∧
      mid'.map Item.plain = mid.map Item.plain ∧ z'.plain = z.plain ∧
      z'.departTraffic = z.departTraffic ∧ (z.isCut = true → z'.departTime = z.closeTime) := by
  induction mid generalizing a out with
  | nil =>
    obtain ⟨hp, -⟩ := List.forall_mem_cons.mp hstays
    obtain ⟨traffic, z', rest', rfl, hrest, hwindow, hsq, hplain, htraf, hcut, hleg⟩ :=
      changeTrafPosFrom_step hp (hsqueeze z (by simp)) (hdur z (by simp)) hrun
    obtain rfl : [z'] = rest' := Option.some.inj hrest
    exact ⟨traffic, [], z', rfl, List.isChain_pair.mpr (hleg z'.departTraffic),
      List.forall_mem_singleton.mpr hwindow, List.forall_mem_singleton.mpr hsq, rfl, hplain, htraf,
      hcut⟩
  | cons p mid ih =>
    obtain ⟨hp, hstays⟩ := List.forall_mem_cons.mp hstays
    obtain ⟨hpsq, hsqueeze⟩ := List.forall_mem_cons.mp hsqueeze
    obtain ⟨hpdur, hdur⟩ := List.forall_mem_cons.mp hdur
    obtain ⟨traffic, p', rest', rfl, hrest, hwindow, hsq, hplain, -, -, hleg⟩ :=
      changeTrafPosFrom_step hp hpsq hpdur hrun
    obtain ⟨traffic', mid', z', rfl, hchain, hstays', hsqueeze', hmap, hz⟩ :=
      ih hstays hsqueeze hdur hrest
    refine ⟨traffic, { p' with departTraffic := traffic' } :: mid', z', rfl,
      List.isChain_cons_cons.mpr ⟨hleg traffic', hchain⟩,
      List.forall_mem_cons.mpr ⟨hwindow, hstays'⟩,
      List.forall_mem_cons.mpr ⟨hsq, hsqueeze'⟩, ?_, hz⟩
    rw [List.map_cons, List.map_cons, hmap, ← hplain]
    rfl

/-! ## From the back -/

/-- One item gets its new times, before the ones behind it. -/
theorem changeTrafRevFrom_step {a next a' : Item} {rest rest' : List Item} (ha : InWindow a)
    (hsq : Squeezable a) (hadur : Nonneg a)
    (hrun : changeTrafRevFrom getTraffic a (next :: rest) = some (a', rest')) :
    ∃ traffic next' tail, rest' = { next' with arriveTraffic := traffic } :: tail ∧
      changeTrafRevFrom getTraffic next rest = some (next', tail) ∧ InWindow a' ∧
      Squeezable a' ∧ a'.plain = a.plain ∧ a'.arriveTraffic = a.arriveTraffic ∧
      (a.isCut = true → a'.arriveTime = a.arriveTime) ∧
      Leg a' { next' with arriveTraffic := traffic } := by
  obtain ⟨hopen, hstay, hclose⟩ := ha
  obtain ⟨hmin, hzip⟩ := hadur
  rw [changeTrafRevFrom] at hrun
  obtain ⟨⟨next', tail⟩, hrest, hrun⟩ := Option.bind_eq_some_iff.mp hrun
  dsimp only at hrun
  split_ifs at hrun with hcut hearly hlate hearly hlate
  · obtain ⟨rfl, rfl⟩ := Prod.mk.inj (Option.some.inj hrun)
    have harrive : ¬ min (min (next'.arriveTime - trafTime (newTraffic getTraffic
        a.departTraffic a.trafDate)) a.closeTime - a.durS.min) a.arriveTime < a.arriveTime :=
      fun h => hearly ⟨hcut, h⟩
    refine ⟨_, next', tail, rfl, hrest, ?_, fun hkey => ?_, rfl, rfl, fun _ => ?_, rfl, ?_⟩
    · dsimp only [InWindow, Item.setTimes]
      omega
    · have hkey' : a.isKey = false := hkey
      rw [Item.isCut, hkey'] at hcut
      contradiction
    · dsimp only [Item.setTimes]
      omega
    · dsimp only [Item.setTimes]
      omega
  · obtain ⟨rfl, rfl⟩ := Prod.mk.inj (Option.some.inj hrun)
    refine ⟨_, next', tail, rfl, hrest, ?_, fun hkey => ?_, rfl, rfl, fun h => absurd h hcut, rfl,
      ?_⟩
    · rw [Item.getDur] at hlate
      dsimp only [InWindow, Item.setTimes, Item.getDur]
      omega
    · have := hsq hkey
      dsimp only [Item.setTimes, Item.getDur] at this ⊢
      omega
    · dsimp only [Item.setTimes]
      omega

/-- The new traffic back from `z`, which is reached as before; so is `a` if it is a key item. -/
theorem changeTrafRevFrom_spec {a' : Item} {rest' : List Item}
    (hstays : ∀ p ∈ a :: (mid ++ [z]), InWindow p) (hsqueeze : ∀ p ∈ a :: mid, Squeezable p)
    (hdur : ∀ p ∈ a :: mid, Nonneg p)
    (hrun : changeTrafRevFrom getTraffic a (mid ++ [z]) = some (a', rest')) :
    ∃ traffic mid', rest' = mid' ++ [{ z with arriveTraffic := traffic }] ∧
      (a' :: rest').IsChain Leg ∧ (∀ p ∈ a' :: mid', InWindow p) ∧
      (∀ p ∈ a' :: mid', Squeezable p) ∧ mid'.map Item.plain = mid.map Item.plain ∧
      a'.plain = a.plain ∧ a'.arriveTraffic = a.arriveTraffic ∧
      (a.isCut = true → a'.arriveTime = a.arriveTime) := by
  induction mid generalizing a a' rest' with
  | nil =>
    obtain ⟨ha, -⟩ := List.forall_mem_cons.mp hstays
    obtain ⟨traffic, z', tail, rfl, hrest, hwindow, hsq, hplain, htraf, hcut, hleg⟩ :=
      changeTrafRevFrom_step ha (hsqueeze a (by simp)) (hdur a (by simp)) hrun
    obtain ⟨rfl, rfl⟩ := Prod.mk.inj (Option.some.inj hrest)
    exact ⟨traffic, [], rfl, List.isChain_pair.mpr hleg, List.forall_mem_singleton.mpr hwindow,
      List.forall_mem_singleton.mpr hsq, rfl, hplain, htraf, hcut⟩
  | cons p mid ih =>
    obtain ⟨ha, hstays⟩ := List.forall_mem_cons.mp hstays
    obtain ⟨hasq, hsqueeze⟩ := List.forall_mem_cons.mp hsqueeze
    obtain ⟨hadur, hdur⟩ := List.forall_mem_cons.mp hdur
    obtain ⟨traffic, p', tail, rfl, hrest, hwindow, hsq, hplain, htraf, hcut, hleg⟩ :=
      changeTrafRevFrom_step ha hasq hadur hrun
    obtain ⟨traffic', mid', rfl, hchain, hstays', hsqueeze', hmap, hpplain, -, -⟩ :=
      ih hstays hsqueeze hdur hrest
    obtain ⟨hpstay, hstays'⟩ := List.forall_mem_cons.mp hstays'
    obtain ⟨hpsq, hsqueeze'⟩ := List.forall_mem_cons.mp hsqueeze'
    refine ⟨traffic', { p' with arriveTraffic := traffic } :: mid', rfl,
      List.isChain_cons_cons.mpr ⟨hleg, hchain.imp_head fun h => ⟨h.1, h.2⟩⟩,
      List.forall_mem_cons.mpr ⟨hwindow, List.forall_mem_cons.mpr ⟨hpstay, hstays'⟩⟩,
      List.forall_mem_cons.mpr ⟨hsq, List.forall_mem_cons.mpr ⟨hpsq, hsqueeze'⟩⟩, ?_, hplain, htraf,
      hcut⟩
    rw [List.map_cons, List.map_cons, hmap, ← hpplain]
    rfl

/-! ## Segments -/

theorem Item.isKey_of_isCut {p : Item} (h : p.isCut = true) : p.isKey = true := by
  rw [isCut, Bool.and_eq_true] at h
  exact h.1

theorem squeezable_of_isKey {p : Item} (h : p.isKey = true) : Squeezable p := by
  intro hno
  rw [h] at hno
  contradiction

theorem KeysStay.concat {path : List Item} (h : KeysStay (mid ++ [z]) path)
    (hkey : z.isKey = true) : ∃ mid', path = mid' ++ [z] := by
  induction mid generalizing path with
  | nil =>
    cases h with
    | cons hz hnil =>
      cases hnil
      exact ⟨[], by rw [hz hkey]; rfl⟩
  | cons p mid ih =>
    cases h with
    | cons hp hrest =>
      obtain ⟨mid', rfl⟩ := ih hrest
      exact ⟨_ :: mid', rfl⟩

/-- The result for a segment from `a` to `z`. -/
structure Renewed (a z : Item) (mid out : List Item) : Prop where
  feasible : Feasible out
  plain : out.map Item.plain = (a :: (mid ++ [z])).map Item.plain
  ends : ∃ a' mid' z', out = a' :: (mid' ++ [z']) ∧ a'.arriveTraffic = a.arriveTraffic ∧
    a'.arriveTime = a.arriveTime ∧ z'.departTraffic = z.departTraffic ∧
    (z'.departTime = z.departTime ∨
      z.placeType &&& LY_PLACE_TYPE_ARRIVE = 0 ∧ z'.departTime = z.closeTime)

theorem getLast_segment (a z : Item) (mid : List Item) :
    (a :: (mid ++ [z])).getLast (List.cons_ne_nil _ _) = z := by
  rw [List.getLast_cons (by simp), List.getLast_concat]

theorem changeTraf_spec (ha : a.isCut = true) (hz : z.isCut = true)
    (hstays : ∀ p ∈ a :: (mid ++ [z]), InWindow p)
    (hsqueeze : ∀ p ∈ mid ++ [z], Squeezable p) (hdur : ∀ p ∈ a :: (mid ++ [z]), Nonneg p)
    (hrun : changeTraf getTraffic (a :: (mid ++ [z])) = some out) :
    Renewed a z mid out ∧ ∀ p ∈ out, Squeezable p := by
  have hakey := squeezable_of_isKey (Item.isKey_of_isCut ha)
  obtain ⟨hastay, hrest⟩ := List.forall_mem_cons.mp hstays
  have hzstay : InWindow z := hrest z (by simp)
  rw [changeTraf] at hrun
  split_ifs at hrun with htype
  · obtain ⟨⟨a', rest'⟩, hrev, rfl⟩ := Option.map_eq_some_iff.mp hrun
    obtain ⟨hmid, -⟩ := List.forall_mem_append.mp hsqueeze
    obtain ⟨traffic, mid', rfl, hchain, hstays', hsqueeze', hmap, haplain, hatraf, hatime⟩ :=
      changeTrafRevFrom_spec hstays (List.forall_mem_cons.mpr ⟨hakey, hmid⟩)
        (fun p hp => hdur p (by simp only [List.mem_cons, List.mem_append] at hp ⊢; tauto)) hrev
    refine ⟨⟨⟨hchain, ?_⟩, ?_, a', mid', _, rfl, hatraf, hatime ha, rfl, .inl rfl⟩, ?_⟩
    · dsimp only
      rw [← List.cons_append]
      exact List.forall_mem_append.mpr ⟨hstays', List.forall_mem_singleton.mpr hzstay⟩
    · simp only [List.map_cons, List.map_append, List.map_nil, hmap, haplain]
      rfl
    · dsimp only
      rw [← List.cons_append]
      exact List.forall_mem_append.mpr ⟨hsqueeze', List.forall_mem_singleton.mpr
        (squeezable_of_isKey (Item.isKey_of_isCut hz))⟩
  · rw [getLast_segment, not_not] at htype
    obtain ⟨-, hdur⟩ := List.forall_mem_cons.mp hdur
    obtain ⟨traffic, mid', z', rfl, hchain, hstays', hsqueeze', hmap, hzplain, hztraf, hztime⟩ :=
      changeTrafPosFrom_spec hrest hsqueeze hdur hrun
    refine ⟨⟨⟨hchain, List.forall_mem_cons.mpr ⟨hastay, hstays'⟩⟩, ?_, _, mid', z', rfl, rfl, rfl,
      hztraf, .inr ⟨htype, hztime hz⟩⟩, List.forall_mem_cons.mpr ⟨?_, hsqueeze'⟩⟩
    · simp only [List.map_cons, List.map_append, List.map_nil, hmap, hzplain]
      rfl
    · exact squeezable_of_isKey (Item.isKey_of_isCut ha)

theorem nonneg_of_plain {path path' : List Item}
    (h : path'.map Item.plain = path.map Item.plain) (hdur : ∀ p ∈ path, Nonneg p) :
    ∀ p ∈ path', Nonneg p :=
  forall_mem_of_plain (P := Nonneg) h hdur

variable {sort : (ℕ → ℕ → Bool) → List ℕ → List ℕ}

/-- A segment that could be replaced. -/
theorem replace_spec {fuel : ℕ} (ha : a.isCut = true) (hz : z.isCut = true)
    (hstays : ∀ p ∈ a :: (mid ++ [z]), InWindow p) (hdur : ∀ p ∈ a :: (mid ++ [z]), Nonneg p)
    (hrun : replace getTraffic sort fuel (a :: (mid ++ [z])) = .ok (some out)) :
    Renewed a z mid out := by
  rw [replace] at hrun
  split at hrun
  · simp [pure, Except.pure] at hrun
  · next changed hchanged =>
    obtain ⟨zipped, hzipped, hchanged⟩ := Option.bind_eq_some_iff.mp hchanged
    obtain ⟨rest, hrest, rfl⟩ := Option.map_eq_some_iff.mp hzipped
    obtain ⟨hastay, hstays⟩ := List.forall_mem_cons.mp hstays
    obtain ⟨hadur, hdur⟩ := List.forall_mem_cons.mp hdur
    -- the squeezed segment still ends at the same key item
    obtain ⟨hmap, hstays', hsqueeze, hsame⟩ := zipFrom_spec hrest hstays fun p hp _ => (hdur p hp).2
    obtain ⟨mid', rfl⟩ := hsame.concat (Item.isKey_of_isCut hz)
    have hplain := map_plain_of_untimed hmap
    have hdurs : ∀ p ∈ a :: (mid' ++ [z]), Nonneg p :=
      List.forall_mem_cons.mpr ⟨hadur, nonneg_of_plain hplain hdur⟩
    obtain ⟨⟨hfeasible, hmap', a', items, z', rfl, hatraf, hatime, hztraf, hztime⟩, hsqueeze'⟩ :=
      changeTraf_spec ha hz (List.forall_mem_cons.mpr ⟨hastay, hstays'⟩) hsqueeze hdurs hchanged
    have hdurs' : ∀ p ∈ a' :: (items ++ [z']), Nonneg p := nonneg_of_plain hmap' hdurs
    have hzkey : z'.isKey = true := by
      have hzplain := congrArg List.getLast? hmap'
      simp only [List.map_cons, List.map_append, List.map_nil, ← List.cons_append,
        List.getLast?_concat, Option.some.injEq] at hzplain
      exact (congrArg Item.isKey hzplain).trans (Item.isKey_of_isCut hz)
    obtain ⟨-, hdurs'⟩ := List.forall_mem_cons.mp hdurs'
    obtain ⟨-, hsqueeze'⟩ := List.forall_mem_cons.mp hsqueeze'
    obtain ⟨rest', rfl, hfeasible', hmap'', hsame'⟩ :=
      timeEnrich_feasible hfeasible (fun p hp _ => (hdurs' p hp).2) hsqueeze' hrun
    obtain ⟨items', rfl⟩ := hsame'.concat hzkey
    refine ⟨hfeasible', ?_, a', items', z', rfl, hatraf, hatime, hztraf, hztime⟩
    rw [List.map_cons, map_plain_of_untimed hmap'', ← List.map_cons, hmap', List.map_cons, hplain]
    rfl

end PPView.RealTime
