import ImportAlias.Proofs.Lineage
import Mathlib.Tactic.Tauto

/-!
# Files below several entries

A walk through the entries of a configuration passes over the files that an
earlier entry led to. Entries that share no file are walked through as if each
were alone. Where a file extends the same files wherever it comes, entries that
do share files give what they would give alone if the files below earlier ones
declared nothing.
-/

namespace ImportAlias

open Declaration (latest)

namespace Lineage

mutual

/-- All places of a lineage. -/
def places : Lineage → List Path
  | node place _ parents => place :: placesAll parents

def placesAll : List Lineage → List Path
  | [] => []
  | parent :: others => parent.places ++ placesAll others

end

theorem mem_placesAll {parents : List Lineage} {place : Path} (h : place ∈ placesAll parents) :
    ∃ parent ∈ parents, place ∈ parent.places := by
  induction parents with
  | nil => simp [placesAll] at h
  | cons parent others ih =>
    rcases List.mem_append.mp h with h | h
    · exact ⟨parent, List.mem_cons_self, h⟩
    · obtain ⟨other, ho, hp⟩ := ih h
      exact ⟨other, List.mem_cons_of_mem parent ho, hp⟩

mutual

theorem not_mem_above {above : List Path} :
    ∀ lineage : Lineage, lineage.Acyclic above → ∀ place ∈ lineage.places, place ∉ above
  | node place own parents, ha, other, hm => by
    obtain ⟨hplace, hall⟩ := ha
    rcases List.mem_cons.mp hm with rfl | hm
    · exact hplace
    · exact fun h => not_mem_aboveAll parents hall other hm (List.mem_cons_of_mem _ h)

theorem not_mem_aboveAll {above : List Path} :
    ∀ parents : List Lineage, AcyclicAll above parents → ∀ place ∈ placesAll parents, place ∉ above
  | parent :: others, ha, place, hm => by
    rcases List.mem_append.mp hm with hm | hm
    · exact not_mem_above parent ha.1 place hm
    · exact not_mem_aboveAll others ha.2 place hm

end

mutual

/-- Places that a lineage does not have do not change the walk through it. -/
theorem walk_append {other : List Path} (seen : List Path) :
    ∀ lineage : Lineage, (∀ place ∈ lineage.places, place ∉ other) →
      lineage.walk (other ++ seen) = (other ++ (lineage.walk seen).1, (lineage.walk seen).2)
  | node place own parents, h => by
    have hplace : place ∉ other := h place List.mem_cons_self
    have hall := fun q hq => h q (List.mem_cons_of_mem place hq)
    rw [walk, walk]
    by_cases hs : place ∈ seen
    · simp [hs]
    · simp only [List.mem_append, hplace, hs, or_self, if_false, List.append_assoc]
      rw [walkAll_append (seen ++ [place]) parents hall]

theorem walkAll_append {other : List Path} (seen : List Path) :
    ∀ parents : List Lineage, (∀ place ∈ placesAll parents, place ∉ other) →
      walkAll (other ++ seen) parents =
        (other ++ (walkAll seen parents).1, (walkAll seen parents).2)
  | [], _ => rfl
  | parent :: others, h => by
    have hfirst := fun q hq => h q (List.mem_append_left _ hq)
    have hrest := fun q hq => h q (List.mem_append_right _ hq)
    rw [walkAll, walkAll, walk_append seen parent hfirst, walkAll_append _ others hrest]

end

mutual

theorem mem_walk {seen : List Path} :
    ∀ lineage : Lineage, ∀ place ∈ (lineage.walk seen).1, place ∈ seen ∨ place ∈ lineage.places
  | node place own parents, other, hm => by
    rw [walk] at hm
    split at hm
    · exact .inl hm
    · have hall := mem_walkAll parents other hm
      simp only [places, List.mem_append, List.mem_cons, List.not_mem_nil, or_false] at hall ⊢
      tauto

theorem mem_walkAll {seen : List Path} :
    ∀ parents : List Lineage, ∀ place ∈ (walkAll seen parents).1,
      place ∈ seen ∨ place ∈ placesAll parents
  | [], place, hm => .inl hm
  | parent :: others, place, hm => by
    rcases mem_walkAll others place hm with hm | hm
    · rcases mem_walk parent place hm with hm | hm
      · exact .inl hm
      · exact .inr (List.mem_append_left _ hm)
    · exact .inr (List.mem_append_right _ hm)

end

/-- No place is below two of the entries. -/
def Apart (parents : List Lineage) : Prop :=
  parents.Pairwise fun first second => ∀ place ∈ second.places, place ∉ first.places

theorem walkAll_of_apart {parents : List Lineage} (h : Apart parents) {seen : List Path}
    (hs : ∀ place ∈ placesAll parents, place ∉ seen) :
    (walkAll seen parents).2 = parents.flatMap fun parent => (parent.walk []).2 := by
  induction parents generalizing seen with
  | nil => rfl
  | cons parent others ih =>
    obtain ⟨hfirst, hothers⟩ := List.pairwise_cons.mp h
    have hw : parent.walk seen = (seen ++ (parent.walk []).1, (parent.walk []).2) := by
      have hp := walk_append [] parent fun q hq => hs q (List.mem_append_left _ hq)
      rwa [List.append_nil] at hp
    have hrest : ∀ place ∈ placesAll others, place ∉ seen ++ (parent.walk []).1 := by
      intro place hm hw
      rcases List.mem_append.mp hw with hw | hw
      · exact hs place (List.mem_append_right _ hm) hw
      · obtain ⟨other, ho, hp⟩ := mem_placesAll hm
        rcases mem_walk parent place hw with hw | hw
        · simp at hw
        · exact hfirst other ho place hp hw
    rw [walkAll, hw, List.flatMap_cons, ih hothers hrest]

def place : Lineage → Path
  | node place _ _ => place

mutual

/-- What a place extends is the same wherever it comes. -/
def Follows (graph : Path → List Path) : Lineage → Prop
  | node place _ parents => parents.map Lineage.place = graph place ∧ FollowsAll graph parents

def FollowsAll (graph : Path → List Path) : List Lineage → Prop
  | [] => True
  | parent :: others => parent.Follows graph ∧ FollowsAll graph others

end

/-- Places with all that they extend. -/
def Closed (graph : Path → List Path) (places : List Path) : Prop :=
  ∀ place ∈ places, ∀ next ∈ graph place, next ∈ places

variable {graph : Path → List Path} {passed : List Path}

theorem Closed.append {first second : List Path} (hf : Closed graph first)
    (hs : Closed graph second) : Closed graph (first ++ second) := by
  intro place hm next hn
  rcases List.mem_append.mp hm with hm | hm
  · exact List.mem_append_left _ (hf place hm next hn)
  · exact List.mem_append_right _ (hs place hm next hn)

theorem place_mem_places (lineage : Lineage) : lineage.place ∈ lineage.places := by
  cases lineage
  exact List.mem_cons_self

theorem mem_placesAll_of_mem {parents : List Lineage} {parent : Lineage} (h : parent ∈ parents) :
    parent.place ∈ placesAll parents := by
  induction parents with
  | nil => simp at h
  | cons first others ih =>
    rcases List.mem_cons.mp h with rfl | h
    · exact List.mem_append_left _ (place_mem_places _)
    · exact List.mem_append_right _ (ih h)

mutual

theorem closed_places : ∀ lineage : Lineage, lineage.Follows graph → Closed graph lineage.places
  | node place own parents, hf => by
    obtain ⟨hparents, hall⟩ := hf
    intro other hm next hn
    refine List.mem_cons_of_mem place ?_
    rcases List.mem_cons.mp hm with rfl | hm
    · rw [← hparents] at hn
      obtain ⟨parent, hp, rfl⟩ := List.mem_map.mp hn
      exact mem_placesAll_of_mem hp
    · exact closed_placesAll parents hall other hm next hn

theorem closed_placesAll :
    ∀ parents : List Lineage, FollowsAll graph parents → Closed graph (placesAll parents)
  | [], _ => by simp [Closed, placesAll]
  | parent :: others, hf =>
    (closed_places parent hf.1).append (closed_placesAll others hf.2)

end

mutual

theorem places_subset_of_closed (hc : Closed graph passed) :
    ∀ lineage : Lineage, lineage.Follows graph → lineage.place ∈ passed →
      ∀ place ∈ lineage.places, place ∈ passed
  | node place own parents, hf, hp, other, hm => by
    rcases List.mem_cons.mp hm with rfl | hm
    · exact hp
    · refine placesAll_subset_of_closed hc parents hf.2 ?_ other hm
      intro parent hparent
      refine hc place hp parent.place ?_
      rw [← hf.1]
      exact List.mem_map_of_mem hparent

theorem placesAll_subset_of_closed (hc : Closed graph passed) :
    ∀ parents : List Lineage, FollowsAll graph parents →
      (∀ parent ∈ parents, parent.place ∈ passed) → ∀ place ∈ placesAll parents, place ∈ passed
  | parent :: others, hf, hp, place, hm => by
    obtain ⟨hfirst, hothers⟩ := List.forall_mem_cons.mp hp
    rcases List.mem_append.mp hm with hm | hm
    · exact places_subset_of_closed hc parent hf.1 hfirst place hm
    · exact placesAll_subset_of_closed hc others hf.2 hothers place hm

end

mutual

theorem mem_walk_of_mem {seen : List Path} :
    ∀ lineage : Lineage, ∀ place ∈ seen, place ∈ (lineage.walk seen).1
  | node place own parents, other, hm => by
    rw [walk]
    split
    · exact hm
    · exact mem_walkAll_of_mem parents other (List.mem_append_left _ hm)

theorem mem_walkAll_of_mem {seen : List Path} :
    ∀ parents : List Lineage, ∀ place ∈ seen, place ∈ (walkAll seen parents).1
  | [], _, hm => hm
  | parent :: others, place, hm =>
    mem_walkAll_of_mem others place (mem_walk_of_mem parent place hm)

end

mutual

/-- A walk enters all places of a lineage, unless it starts with some of them and without all that
they extend. -/
theorem mem_walk_of_mem_places {above seen passed : List Path} (hc : Closed graph passed)
    (hs : ∀ place ∈ seen, place ∈ above ∨ place ∈ passed) (hp : ∀ place ∈ passed, place ∈ seen) :
    ∀ lineage : Lineage, lineage.Follows graph → lineage.Acyclic above →
      ∀ place ∈ lineage.places, place ∈ (lineage.walk seen).1
  | node place own parents, hf, ha, other, hm => by
    rw [walk]
    split
    · rename_i hseen
      have hpassed : place ∈ passed := (hs place hseen).resolve_left ha.1
      exact hp other (places_subset_of_closed hc _ hf hpassed other hm)
    · have hs' : ∀ q ∈ seen ++ [place], q ∈ place :: above ∨ q ∈ passed := by
        intro q hq
        have := hs q
        simp only [List.mem_append, List.mem_cons, List.not_mem_nil, or_false] at hq ⊢
        tauto
      have hp' : ∀ q ∈ passed, q ∈ seen ++ [place] :=
        fun q hq => List.mem_append_left _ (hp q hq)
      rcases List.mem_cons.mp hm with rfl | hm
      · exact mem_walkAll_of_mem parents other (by simp)
      · exact mem_walkAll_of_mem_placesAll hc hs' hp' parents hf.2 ha.2 other hm

theorem mem_walkAll_of_mem_placesAll {above seen passed : List Path} (hc : Closed graph passed)
    (hs : ∀ place ∈ seen, place ∈ above ∨ place ∈ passed) (hp : ∀ place ∈ passed, place ∈ seen) :
    ∀ parents : List Lineage, FollowsAll graph parents → AcyclicAll above parents →
      ∀ place ∈ placesAll parents, place ∈ (walkAll seen parents).1
  | parent :: others, hf, ha, place, hm => by
    have hfirst := mem_walk_of_mem_places hc hs hp parent hf.1 ha.1
    have hc' : Closed graph (passed ++ parent.places) := hc.append (closed_places parent hf.1)
    have hs' : ∀ q ∈ (parent.walk seen).1, q ∈ above ∨ q ∈ passed ++ parent.places := by
      intro q hq
      have := hs q
      have := mem_walk parent q hq
      rw [List.mem_append]
      tauto
    have hp' : ∀ q ∈ passed ++ parent.places, q ∈ (parent.walk seen).1 := by
      intro q hq
      rcases List.mem_append.mp hq with hq | hq
      · exact mem_walk_of_mem parent q (hp q hq)
      · exact hfirst q hq
    rcases List.mem_append.mp hm with hm | hm
    · exact mem_walkAll_of_mem others place (hfirst place hm)
    · exact mem_walkAll_of_mem_placesAll hc' hs' hp' others hf.2 ha.2 place hm

end

mutual

/-- The lineage if the files at some places declared nothing. -/
def silence (passed : List Path) : Lineage → Lineage
  | node place own parents =>
    node place (if place ∈ passed then .empty else own) (silenceAll passed parents)

def silenceAll (passed : List Path) : List Lineage → List Lineage
  | [] => []
  | parent :: others => parent.silence passed :: silenceAll passed others

end

mutual

@[simp] theorem places_silence :
    ∀ lineage : Lineage, (lineage.silence passed).places = lineage.places
  | node place own parents => by rw [silence, places, places, placesAll_silenceAll parents]

@[simp] theorem placesAll_silenceAll :
    ∀ parents : List Lineage, placesAll (silenceAll passed parents) = placesAll parents
  | [] => rfl
  | parent :: others => by
    rw [silenceAll, placesAll, placesAll, places_silence parent, placesAll_silenceAll others]

end

mutual

theorem walk_silence_fst {seen : List Path} :
    ∀ lineage : Lineage, ((lineage.silence passed).walk seen).1 = (lineage.walk seen).1
  | node place own parents => by
    rw [silence, walk, walk]
    split
    · rfl
    · exact walkAll_silenceAll_fst parents

theorem walkAll_silenceAll_fst {seen : List Path} :
    ∀ parents : List Lineage,
      (walkAll seen (silenceAll passed parents)).1 = (walkAll seen parents).1
  | [] => rfl
  | parent :: others => by
    simp only [silenceAll, walkAll]
    rw [walk_silence_fst parent, walkAll_silenceAll_fst others]

end

mutual

/-- Where all files are silenced, nothing is declared. -/
theorem latest_walk_silence {seen : List Path} :
    ∀ lineage : Lineage, (∀ place ∈ lineage.places, place ∈ passed) →
      latest ((lineage.silence passed).walk seen).2 = .empty
  | node place own parents, h => by
    have hplace : place ∈ passed := h place List.mem_cons_self
    rw [silence, walk, if_pos hplace]
    split
    · rfl
    · rw [Declaration.latest_append, Declaration.latest_singleton, Declaration.empty_overriding]
      exact latest_walkAll_silenceAll parents fun q hq => h q (List.mem_cons_of_mem place hq)

theorem latest_walkAll_silenceAll {seen : List Path} :
    ∀ parents : List Lineage, (∀ place ∈ placesAll parents, place ∈ passed) →
      latest (walkAll seen (silenceAll passed parents)).2 = .empty
  | [], _ => rfl
  | parent :: others, h => by
    rw [silenceAll, walkAll, Declaration.latest_append,
      latest_walk_silence parent fun q hq => h q (List.mem_append_left _ hq),
      latest_walkAll_silenceAll others fun q hq => h q (List.mem_append_right _ hq),
      Declaration.empty_overriding]

end

mutual

theorem walk_of_passed (hc : Closed graph passed) {seen all : List Path}
    (ha : ∀ place, place ∈ all ↔ place ∈ passed ∨ place ∈ seen) :
    ∀ lineage : Lineage, lineage.Follows graph →
      latest (lineage.walk all).2 = latest ((lineage.silence passed).walk seen).2 ∧
        ∀ place, place ∈ (lineage.walk all).1 ↔ place ∈ passed ∨ place ∈ (lineage.walk seen).1
  | node place own parents, hf => by
    by_cases hs : place ∈ seen
    · have hall : place ∈ all := (ha place).mpr (.inr hs)
      rw [silence, walk, walk, walk, if_pos hall, if_pos hs, if_pos hs]
      exact ⟨rfl, ha⟩
    by_cases hp : place ∈ passed
    · -- the walk that passes the place over also misses what the other one still enters below it
      have hall : place ∈ all := (ha place).mpr (.inl hp)
      have hsub := places_subset_of_closed hc _ hf hp
      rw [latest_walk_silence _ hsub, walk, if_pos hall]
      refine ⟨rfl, fun q => ⟨fun hq => ?_, fun hq => ?_⟩⟩
      · exact ((ha q).mp hq).imp_right (mem_walk_of_mem _ q)
      · rcases hq with hq | hq
        · exact (ha q).mpr (.inl hq)
        · exact (ha q).mpr ((mem_walk _ q hq).symm.imp_left (hsub q))
    · have hall : place ∉ all := fun h => ((ha place).mp h).elim hp hs
      have ha' : ∀ q, q ∈ all ++ [place] ↔ q ∈ passed ∨ q ∈ seen ++ [place] := by
        intro q
        rw [List.mem_append, List.mem_append, ha, or_assoc]
      obtain ⟨hl, he⟩ := walkAll_of_passed hc ha' parents hf.2
      rw [silence, walk, walk, walk, if_neg hall, if_neg hs, if_neg hs, if_neg hp]
      refine ⟨?_, he⟩
      rw [Declaration.latest_append, Declaration.latest_append, hl]

theorem walkAll_of_passed (hc : Closed graph passed) {seen all : List Path}
    (ha : ∀ place, place ∈ all ↔ place ∈ passed ∨ place ∈ seen) :
    ∀ parents : List Lineage, FollowsAll graph parents →
      latest (walkAll all parents).2 = latest (walkAll seen (silenceAll passed parents)).2 ∧
        ∀ place, place ∈ (walkAll all parents).1 ↔ place ∈ passed ∨ place ∈ (walkAll seen parents).1
  | [], _ => ⟨rfl, ha⟩
  | parent :: others, hf => by
    obtain ⟨hl, he⟩ := walk_of_passed hc ha parent hf.1
    obtain ⟨hls, hes⟩ := walkAll_of_passed hc he others hf.2
    refine ⟨?_, hes⟩
    rw [silenceAll, walkAll, walkAll, Declaration.latest_append, Declaration.latest_append, hl,
      hls, walk_silence_fst]

end

/-- The entries, where the files below an earlier entry declare nothing. -/
def silenced (passed : List Path) : List Lineage → List Lineage
  | [] => []
  | parent :: others => parent.silence passed :: silenced (passed ++ parent.places) others

/-- Entries that follow a graph give what they would give alone if the files below earlier ones
declared nothing. -/
theorem latest_walkAll_eq_silenced {parents : List Lineage} {root : Path}
    (hf : FollowsAll graph parents) (ha : AcyclicAll [root] parents) (hc : Closed graph passed)
    {seen : List Path} (hs : ∀ place, place ∈ seen ↔ place ∈ passed ∨ place ∈ [root]) :
    latest (walkAll seen parents).2 =
      latest ((silenced passed parents).map fun parent => latest (parent.walk []).2) := by
  induction parents generalizing passed seen with
  | nil => rfl
  | cons parent others ih =>
    obtain ⟨hl, he⟩ := walk_of_passed hc hs parent hf.1
    have halone :
        ((parent.silence passed).walk [root]).2 = ((parent.silence passed).walk []).2 := by
      have hroot : ∀ place ∈ (parent.silence passed).places, place ∉ [root] := by
        rw [places_silence]
        exact not_mem_above parent ha.1
      rw [← List.append_nil [root], walk_append [] (parent.silence passed) hroot]
    have hcover := mem_walk_of_mem_places hc (fun q hq => ((hs q).mp hq).symm)
      (fun q hq => (hs q).mpr (.inl hq)) parent hf.1 ha.1
    have hnext : ∀ q, q ∈ (parent.walk seen).1 ↔ q ∈ passed ++ parent.places ∨ q ∈ [root] := by
      intro q
      have hseen := hs q
      have hin : q ∈ (parent.walk seen).1 → q ∈ seen ∨ q ∈ parent.places := mem_walk parent q
      have hkept : q ∈ seen → q ∈ (parent.walk seen).1 := mem_walk_of_mem parent q
      have hcovered := hcover q
      rw [List.mem_append]
      tauto
    rw [walkAll, Declaration.latest_append, hl, halone, silenced, List.map_cons,
      Declaration.latest_cons]
    rw [ih hf.2 ha.2 (hc.append (closed_places parent hf.1)) hnext]

end Lineage

end ImportAlias
