import SyntaxForest.Proofs.Insertion
import SyntaxForest.Proofs.Listing
/-!
# What a change of links does to listings

Detaching a node writes a few links in one place. The listing of every node above it, however far up, loses
the listing of the detached tree, which stood there in one piece, and every other listing stays as it was.
Attaching is the same seen from the other side. The counts follow the listings: those of the nodes above change
by those of the tree that came or went, kind by kind, and no others change.
-/

namespace SyntaxForest

open Edit

variable {s : Layout} {f g : Forest} {p a b c : NodeId} {before after cs : List NodeId} {t : Tree}
  {ks xs ys : List Kind}

/-! ## Histograms of a list and of a part of it -/

theorem Histogram.Tallies.merge {whole rest part : Histogram} (hwhole : whole.Tallies ks)
    (hrest : rest.Tallies xs) (hpart : part.Tallies ys) (hperm : ks.Perm (xs ++ ys)) (kind : Kind) :
    whole.count? kind = (rest.count? kind).merge (· + ·) (part.count? kind) := by
  rw [hwhole.count?_eq, hrest.count?_eq, hpart.count?_eq, hperm.count_eq, List.count_append]
  simp only [hperm.mem_iff, List.mem_append]
  by_cases hx : kind ∈ xs <;> by_cases hy : kind ∈ ys
  · simp [hx, hy]
  · simp [hx, hy, List.count_eq_zero_of_not_mem]
  · simp [hx, hy, List.count_eq_zero_of_not_mem]
  · simp [hx, hy]

/-! ## Trees cut out of trees -/

namespace Tree

/-- `t.Cut u v`: the tree `u` without the tree `t`, which stands somewhere below its root, is `v`. -/
inductive Cut (t : Tree) : Tree → Tree → Prop
  | here (id : NodeId) (us vs : List Tree) : Cut t (.node id (us ++ [t] ++ vs)) (.node id (us ++ vs))
  | deeper (id : NodeId) (us vs : List Tree) {u v : Tree} :
      Cut t u v → Cut t (.node id (us ++ [u] ++ vs)) (.node id (us ++ [v] ++ vs))

theorem Cut.root_eq {u v : Tree} (h : t.Cut u v) : v.root = u.root := by
  cases h <;> rfl

/-- A tree is listed in one piece inside the listing of a tree that holds it. -/
theorem Cut.preorder {u v : Tree} (h : t.Cut u v) :
    ∃ X Y, u.preorder = X ++ t.preorder ++ Y ∧ v.preorder = X ++ Y := by
  induction h with
  | here id us vs =>
    refine ⟨id :: preorderAll us, preorderAll vs, ?_, ?_⟩ <;>
      simp [Tree.preorder, preorderAll_eq_flatMap]
  | deeper id us vs _ ih =>
    obtain ⟨X, Y, hu, hv⟩ := ih
    refine ⟨id :: preorderAll us ++ X, Y ++ preorderAll vs, ?_, ?_⟩
    · simp [Tree.preorder, preorderAll_eq_flatMap, hu]
    · simp [Tree.preorder, preorderAll_eq_flatMap, hv]

end Tree

namespace Forest.Realizes

/-! ## Listings without the detached node -/

section Pruned

variable {hplace : s.children p = before ++ [c] ++ after} (hf : f.Realizes s)
  (hg : g.Realizes (s.prune p before [c] after hplace)) (hfg : f.SameContents g)

include hf hg hfg

/-- A tree that does not reach up to `p` is left alone. -/
theorem in_pruned (ht : t.In f) (hp : ¬ s.Covers t.root p) : t.In g := by
  refine ht.congr fun x hx => hf.children_congr hg hfg ?_
  have hne : x ≠ p := fun e => hp (e ▸ (hf.mem_preorder_iff ht).1 hx)
  rw [Layout.children_prune, if_neg hne]

theorem exists_kept_trees (hcs : ∀ y ∈ cs, f.Has y ∧ ¬ s.Covers y p) :
    ∃ ts, Tree.roots ts = cs ∧ ∀ t ∈ ts, t.In f ∧ t.In g := by
  obtain ⟨ts, rfl, hts⟩ := exists_trees fun y hy => hf.exists_tree (hcs y hy).1
  refine ⟨ts, rfl, fun t ht => ⟨hts t ht, hf.in_pruned hg hfg (hts t ht) ?_⟩⟩
  exact (hcs t.root (List.mem_map_of_mem ht)).2

/-- A node whose children have changed only between others that do not reach up to `p`. -/
theorem exists_around {left right : List NodeId} {ms ns : List Tree} (ha : f.Has a)
    (hkept : ∀ y ∈ left ++ right, f.Has y ∧ ¬ s.Covers y p)
    (hms : s.children a = left ++ Tree.roots ms ++ right)
    (hns : (s.prune p before [c] after hplace).children a = left ++ Tree.roots ns ++ right)
    (hin : ∀ t ∈ ms, t.In f) (hin' : ∀ t ∈ ns, t.In g) :
    ∃ us vs, (Tree.node a (us ++ ms ++ vs)).In f ∧ (Tree.node a (us ++ ns ++ vs)).In g := by
  rw [List.forall_mem_append] at hkept
  obtain ⟨us, rfl, hus⟩ := hf.exists_kept_trees hg hfg hkept.1
  obtain ⟨vs, rfl, hvs⟩ := hf.exists_kept_trees hg hfg hkept.2
  refine ⟨us, vs, hf.in_node_iff.2 ⟨ha, by simpa using hms, ?_⟩,
    hg.in_node_iff.2 ⟨hfg.has.2 ha, by simpa using hns, ?_⟩⟩
  · simp only [List.forall_mem_append]
    exact ⟨⟨fun u hu => (hus u hu).1, hin⟩, fun v hv => (hvs v hv).1⟩
  · simp only [List.forall_mem_append]
    exact ⟨⟨fun u hu => (hus u hu).2, hin'⟩, fun v hv => (hvs v hv).2⟩

/-- On the way up from `p` each tree loses the tree under `c`. Beside the way stand trees that do not reach it. -/
theorem exists_cut (ht : t.In f) (hroot : t.root = c) (ha : s.Covers a p) :
    ∃ u v, t.Cut u v ∧ u.root = a ∧ u.In f ∧ v.In g := by
  induction ha using Relation.ReflTransGen.head_induction_on with
  | refl =>
    have hmid : s.children p = before ++ c :: after := by simpa using hplace
    have hkept : ∀ y ∈ before ++ after, f.Has y ∧ ¬ s.Covers y p := by
      intro y hy
      have hparent := Layout.parent_of_beside hmid hy
      exact ⟨(hf.has hparent).2, Layout.not_covers_parent hparent⟩
    have hold : s.children p = before ++ Tree.roots [t] ++ after := by simpa [hroot] using hplace
    have hnew : (s.prune p before [c] after hplace).children p = before ++ Tree.roots [] ++ after := by
      simp [Layout.children_prune]
    obtain ⟨us, vs, hu, hv⟩ := hf.exists_around hg hfg (hf.has (Layout.parent_of_middle hmid)).1 hkept
      hold hnew (by simpa using ht) (by simp)
    rw [List.append_nil] at hv
    exact ⟨_, _, .here p us vs, rfl, hu, hv⟩
  | @head a q hq hqp ih =>
    obtain ⟨u, v, hcut, rfl, hu, hv⟩ := ih
    obtain ⟨left, right, hmid⟩ := Layout.exists_place hq
    have hap : a ≠ p := by
      rintro rfl
      exact Layout.not_covers_parent hq hqp
    have hkept : ∀ y ∈ left ++ right, f.Has y ∧ ¬ s.Covers y p := by
      intro y hy
      have hparent := Layout.parent_of_beside hmid hy
      refine ⟨(hf.has hparent).2, fun hyp => ?_⟩
      -- of the children of a node only one has `p` under it
      obtain ⟨hl, hr⟩ := Layout.not_mem_of_middle hmid
      rw [Layout.eq_of_covers_of_siblings hparent hq hyp hqp, List.mem_append] at hy
      exact hy.elim hl hr
    have hold : s.children a = left ++ Tree.roots [u] ++ right := by simpa using hmid
    have hnew : (s.prune p before [c] after hplace).children a = left ++ Tree.roots [v] ++ right := by
      rw [Layout.children_prune, if_neg hap, hold, Tree.roots_cons, Tree.roots_cons, hcut.root_eq]
    obtain ⟨us, vs, hu', hv'⟩ := hf.exists_around hg hfg (hf.has hq).1 hkept hold hnew
      (by simpa using hu) (by simpa using hv)
    exact ⟨_, _, .deeper a us vs hcut, rfl, hu', hv'⟩

theorem preorder_above (ha : s.Above a c) : ∃ X segment Y, f.preorder c = .ok segment ∧
    f.preorder a = .ok (X ++ segment ++ Y) ∧ g.preorder a = .ok (X ++ Y) := by
  obtain ⟨q, hq, hcov⟩ := Layout.above_iff.1 ha
  rw [Layout.parent_of_place hplace List.mem_cons_self] at hq
  cases hq
  obtain ⟨t, rfl, ht⟩ := hf.exists_tree (hf.has (Layout.parent_of_place hplace List.mem_cons_self)).2
  obtain ⟨u, v, hcut, rfl, hu, hv⟩ := hf.exists_cut hg hfg ht rfl hcov
  obtain ⟨X, Y, hX, hY⟩ := hcut.preorder
  refine ⟨X, t.preorder, Y, hf.preorder_eq ht (has_of_in ht), ?_, ?_⟩
  · rw [← hX, hf.preorder_eq hu (has_of_in hu)]
  · rw [← hY, ← hcut.root_eq, hg.preorder_eq hv (has_of_in hv)]

theorem preorder_elsewhere (hb : f.Has b) (hn : ¬ s.Above b c) :
    ∃ nodes, f.preorder b = .ok nodes ∧ g.preorder b = .ok nodes := by
  obtain ⟨t, rfl, ht⟩ := hf.exists_tree hb
  have hp : ¬ s.Covers t.root p := fun hv =>
    hn (Layout.above_iff.2 ⟨p, Layout.parent_of_place hplace List.mem_cons_self, hv⟩)
  have ht' := hf.in_pruned hg hfg ht hp
  exact ⟨t.preorder, hf.preorder_eq ht hb, hg.preorder_eq ht' (has_of_in ht')⟩

end Pruned

end Forest.Realizes

/-! ## Listings and counts before and after -/

namespace Forest

/-- `g` is `f` with the tree under `c` cut off from what is above it, as listings and counts see it. -/
structure Spliced (f g : Forest) (c : NodeId) : Prop where
  /-- The listing of a node above `c` loses that of `c`, which is one piece of it. -/
  above : ∀ a, f.isAncestorOf a c = .ok true → ∃ X segment Y, f.preorder c = .ok segment ∧
    f.preorder a = .ok (X ++ segment ++ Y) ∧ g.preorder a = .ok (X ++ Y)
  /-- All other nodes keep their listings, `c` and the nodes below it too. -/
  elsewhere : ∀ b, f.Has b → f.isAncestorOf b c ≠ .ok true →
    ∃ nodes, f.preorder b = .ok nodes ∧ g.preorder b = .ok nodes
  count_above : ∀ a, f.isAncestorOf a c = .ok true → ∃ part rest, f.countNodes c = .ok part ∧ 0 < part ∧
    g.countNodes a = .ok rest ∧ f.countNodes a = .ok (rest + part)
  count_elsewhere : ∀ b, f.Has b → f.isAncestorOf b c ≠ .ok true →
    ∃ count, f.countNodes b = .ok count ∧ g.countNodes b = .ok count
  /-- Kind by kind, what is counted above `c` is what is left and what is counted under `c`. -/
  histogram_above : ∀ a, f.isAncestorOf a c = .ok true → ∃ part rest whole, f.histogram c = .ok part ∧
    g.histogram a = .ok rest ∧ f.histogram a = .ok whole ∧
      ∀ kind, whole.count? kind = (rest.count? kind).merge (· + ·) (part.count? kind)
  histogram_elsewhere : ∀ b, f.Has b → f.isAncestorOf b c ≠ .ok true →
    ∃ histogram, f.histogram b = .ok histogram ∧ g.histogram b = .ok histogram

/-- `g` is `f` with the tree under `c` put in under `p`, as listings and counts see it: cutting it off again
gives back those of `f`. -/
structure SplicedIn (f g : Forest) (p c : NodeId) : Prop where
  /-- So `p` and the nodes above it are those whose listings grow. -/
  parent : g.parent c = .ok (some p)
  spliced : g.Spliced f c

/-- The histogram of a listing is that of one piece of it added to that of the rest. -/
theorem histogram_of_spliced {X segment Y : List NodeId} (hfg : f.SameContents g)
    (hhas : ∀ x ∈ X ++ segment ++ Y, f.Has x) (hsegment : f.preorder c = .ok segment)
    (hwhole : f.preorder a = .ok (X ++ segment ++ Y)) (hrest : g.preorder a = .ok (X ++ Y)) :
    ∃ part rest whole, f.histogram c = .ok part ∧ g.histogram a = .ok rest ∧ f.histogram a = .ok whole ∧
      ∀ kind, whole.count? kind = (rest.count? kind).merge (· + ·) (part.count? kind) := by
  simp only [List.forall_mem_append] at hhas
  obtain ⟨xs, hxs⟩ := exists_haveKinds hhas.1.1
  obtain ⟨ks, hks⟩ := exists_haveKinds hhas.1.2
  obtain ⟨ys, hys⟩ := exists_haveKinds hhas.2
  have hkept : g.HaveKinds (X ++ Y) (xs ++ ys) :=
    (hxs.append hys).mono fun x k hk => (hfg.kind_eq x).trans hk
  obtain ⟨part, hpart, htpart⟩ := histogram_of_listing hsegment hks
  obtain ⟨rest, hrest, htrest⟩ := histogram_of_listing hrest hkept
  obtain ⟨whole, hwhole, htwhole⟩ := histogram_of_listing hwhole ((hxs.append hks).append hys)
  refine ⟨part, rest, whole, hpart, hrest, hwhole, htwhole.merge htrest htpart ?_⟩
  rw [List.append_assoc, List.append_assoc]
  exact List.perm_append_comm.append_left xs

/-- Pruning one child, seen through listings and counts. -/
theorem Realizes.spliced (hf : f.Realizes s) (hplace : s.children p = before ++ [c] ++ after)
    (hg : g.Realizes (s.prune p before [c] after hplace)) (hfg : f.SameContents g) : f.Spliced g c := by
  have hc : f.Has c := (hf.has (Layout.parent_of_place hplace List.mem_cons_self)).2
  have habove : ∀ {a}, f.isAncestorOf a c = .ok true → s.Above a c := hf.isAncestorOf_iff.1
  have helsewhere : ∀ b, f.Has b → f.isAncestorOf b c ≠ .ok true →
      ∃ nodes, f.preorder b = .ok nodes ∧ g.preorder b = .ok nodes := by
    intro b hb hn
    rw [ne_eq, hf.isAncestorOf_iff] at hn
    exact hf.preorder_elsewhere hg hfg hb hn
  constructor
  · exact fun a ha => hf.preorder_above hg hfg (habove ha)
  · exact helsewhere
  · intro a ha
    obtain ⟨X, segment, Y, hsegment, hwhole, hrest⟩ := hf.preorder_above hg hfg (habove ha)
    obtain ⟨nodes, hnodes, -, hmem⟩ := hf.exists_preorder hc
    rw [hsegment] at hnodes
    cases hnodes
    refine ⟨_, _, countNodes_of_listing hsegment, ?_, countNodes_of_listing hrest, ?_⟩
    · exact List.length_pos_of_mem ((hmem c).2 (Layout.Covers.refl s c))
    · rw [countNodes_of_listing hwhole]
      simp only [List.length_append, Except.ok.injEq]
      omega
  · intro b hb hn
    obtain ⟨nodes, hold, hnew⟩ := helsewhere b hb hn
    exact ⟨_, countNodes_of_listing hold, countNodes_of_listing hnew⟩
  · intro a ha
    obtain ⟨X, segment, Y, hsegment, hwhole, hrest⟩ := hf.preorder_above hg hfg (habove ha)
    have hhas : f.Has a := hf.has_of_covered hc (habove ha).covers
    obtain ⟨nodes, hnodes, -, hmem⟩ := hf.exists_preorder hhas
    rw [hwhole] at hnodes
    cases hnodes
    exact histogram_of_spliced hfg (fun x hx => hf.has_of_covers hhas ((hmem x).1 hx)) hsegment hwhole hrest
  · intro b hb hn
    obtain ⟨nodes, hold, hnew⟩ := helsewhere b hb hn
    have hsame : g.histogram b = f.histogram b := by
      unfold histogram
      rw [hold, hnew, funext hfg.kind_eq]
    obtain ⟨t, rfl, ht⟩ := hf.exists_tree hb
    obtain ⟨_, histogram, -, hhistogram, -⟩ := hf.histogram_tallies ht
    exact ⟨histogram, hhistogram, hsame.trans hhistogram⟩

end Forest

theorem Layout.Prunes.spliced (hg : s.Prunes f g p before [c] after) (hf : f.Realizes s) : f.Spliced g c :=
  hf.spliced hg.place (hg.realizes hf) hg.sameContents

/-- A grafted node can be pruned again, so attaching is detaching seen from the other side. -/
theorem Layout.Grafts.splicedIn (hg : s.Grafts f g p before c after) (hf : f.Realizes s) : f.SplicedIn g p c where
  parent := (hg.inserted hf).new_parent c List.mem_cons_self
  spliced := by
    refine (hg.realizes hf).spliced (place_graft hg.fits) ?_ hg.sameContents.symm
    rwa [prune_graft]

/-- Every change of one link is a splice of listings. -/
structure Forest.SplicesListings (f : Forest) : Prop where
  detach : ∀ p c, f.parent c = .ok (some p) →
    (detach c).answer f = .ok () ∧ f.Spliced ((detach c).after f) c
  prependChild : ∀ p c, (prependChild p c).answer f = .ok () → f.SplicedIn ((prependChild p c).after f) p c
  appendChild : ∀ p c, (appendChild p c).answer f = .ok () → f.SplicedIn ((appendChild p c).after f) p c
  insertAfter : ∀ c sibling, (insertAfter c sibling).answer f = .ok () →
    ∃ p, f.parent sibling = .ok (some p) ∧ f.SplicedIn ((insertAfter c sibling).after f) p c
  insertBefore : ∀ c sibling, (insertBefore c sibling).answer f = .ok () →
    ∃ p, f.parent sibling = .ok (some p) ∧ f.SplicedIn ((insertBefore c sibling).after f) p c

/-- In a reachable forest detaching cuts one piece out of the listings above, and attaching puts it in. -/
theorem reachable_splicesListings (hf : f.Reachable) : f.SplicesListings := by
  obtain ⟨s, h⟩ := hf.realizes
  constructor
  · intro p c hp
    obtain ⟨before, after, hplace⟩ := h.parent_eq_some_iff.1 hp
    obtain ⟨_, ha, hg⟩ := (detach_succeeds h hplace).answer_after
    exact ⟨ha, hg.spliced h⟩
  · intro p c ha
    exact ((prependChild_leads h p c).ok (answer_eq_ok_iff.1 ha)).splicedIn h
  · intro p c ha
    exact ((appendChild_leads h p c).ok (answer_eq_ok_iff.1 ha)).splicedIn h
  · intro c sibling ha
    obtain ⟨p, before, after, hg⟩ := (insertAfter_leads h c sibling).ok (answer_eq_ok_iff.1 ha)
    exact ⟨p, hg.parent_beside h (by simp), hg.splicedIn h⟩
  · intro c sibling ha
    obtain ⟨p, before, after, hg⟩ := (insertBefore_leads h c sibling).ok (answer_eq_ok_iff.1 ha)
    exact ⟨p, hg.parent_beside h (by simp), hg.splicedIn h⟩

-- the first statement goes out of the listing of the script, two levels up, with the name under it
theorem sampleForest_splicesListings :
    sampleForest.SplicesListings ∧ sampleForest.isAncestorOf ⟨5⟩ ⟨3⟩ = .ok true ∧
      sampleForest.preorder ⟨5⟩ = .ok ([⟨5⟩, ⟨4⟩] ++ [⟨3⟩, ⟨1⟩] ++ [⟨2⟩, ⟨0⟩]) ∧
      ((detach ⟨3⟩).after sampleForest).preorder ⟨5⟩ = .ok ([⟨5⟩, ⟨4⟩] ++ [⟨2⟩, ⟨0⟩]) ∧
      ((detach ⟨3⟩).after sampleForest).preorder ⟨3⟩ = .ok [⟨3⟩, ⟨1⟩] ∧
      (insertAfter ⟨6⟩ ⟨3⟩).answer sampleForest = .ok () ∧
      ((insertAfter ⟨6⟩ ⟨3⟩).after sampleForest).parent ⟨6⟩ = .ok (some ⟨4⟩) ∧
      ((insertAfter ⟨6⟩ ⟨3⟩).after sampleForest).countNodes ⟨5⟩ = .ok 11 :=
  ⟨reachable_splicesListings reachable_sampleForest, by decide +kernel, by decide +kernel,
    by decide +kernel, by decide +kernel, by decide +kernel, by decide +kernel, by decide +kernel⟩

end SyntaxForest
