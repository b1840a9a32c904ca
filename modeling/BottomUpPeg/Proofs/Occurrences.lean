import BottomUpPeg.Proofs.Placement

namespace BottomUpPeg

namespace Node

theorem preorder_eq (n : Node) : n.preorder = n :: preorderAll n.children := by
  cases n
  rw [preorder]

theorem preorderAll_append (ns ms : List Node) :
    preorderAll (ns ++ ms) = preorderAll ns ++ preorderAll ms := by
  induction ns with
  | nil => simp [preorderAll]
  | cons n ns ih => rw [List.cons_append, preorderAll, preorderAll, ih, List.append_assoc]

theorem preorderAll_flatMap {α : Type} (f : α → List Node) (l : List α) :
    preorderAll (l.flatMap f) = l.flatMap fun a => preorderAll (f a) := by
  induction l with
  | nil => simp [preorderAll]
  | cons a l ih => rw [List.flatMap_cons, preorderAll_append, ih, List.flatMap_cons]

-- The nodes that are still on the stack come after those below the one taken from it.
theorem visit_eq (label : String) (stack : List Node) :
    visit label stack = (preorderAll stack).filter (·.label = label) := by
  fun_induction visit label stack with
  | case1 => simp [preorderAll]
  | case2 n stack hlabel ih =>
      rw [ih, preorderAll_append, preorderAll, preorder_eq, List.cons_append,
        List.filter_cons_of_pos (by simpa using hlabel)]
  | case3 n stack hlabel ih =>
      rw [ih, preorderAll_append, preorderAll, preorder_eq, List.cons_append,
        List.filter_cons_of_neg (by simpa using hlabel)]

theorem findAll_eq (n : Node) (label : String) :
    n.findAll label = n.preorder.filter (·.label = label) := by
  rw [findAll, visit_eq, preorderAll, preorderAll, List.append_nil]

end Node

namespace Match

def at? : Match → List Nat → Option Match
  | m, [] => some m
  | m, i :: path => m.parts[i]?.bind fun x => x.at? path

def labelAt? (g : Grammar) : Match → List Nat → Option String
  | _, [] => none
  | m, [i] => m.parts[i]?.bind (m.partLabel? g i)
  | m, i :: j :: path => m.parts[i]?.bind fun x => x.labelAt? g (j :: path)

structure Hosts (g : Grammar) (m : Match) (q q' : List Nat) : Prop where
  below : q <+: q'
  proper : q ≠ q'
  labelled : (m.labelAt? g q').isSome = true
  nearest : ∀ between, q <+: between → between <+: q' → between ≠ q → between ≠ q' →
    m.labelAt? g between = none

mutual

def addresses : Match → List (List Nat)
  | ⟨_, _, _, _, parts⟩ => [] :: addressesAll 0 parts

def addressesAll (i : Nat) : List Match → List (List Nat)
  | [] => []
  | m :: rest => (addresses m).map (i :: ·) ++ addressesAll (i + 1) rest

end

def topmost (g : Grammar) : Match → List Nat → Bool
  | _, [] => false
  | m, i :: path => m.parts[i]?.any fun x =>
      match m.partLabel? g i x with
      | some _ => path.isEmpty
      | none => x.topmost g path

theorem addresses_eq (m : Match) : m.addresses = [] :: addressesAll 0 m.parts := by
  cases m
  rw [addresses]

theorem addressesAll_eq (i : Nat) (parts : List Match) :
    addressesAll i parts =
      (parts.zipIdx i).flatMap fun part => part.1.addresses.map (part.2 :: ·) := by
  induction parts generalizing i with
  | nil => rw [addressesAll, List.zipIdx_nil, List.flatMap_nil]
  | cons m parts ih => rw [addressesAll, ih, List.zipIdx_cons, List.flatMap_cons]

mutual

theorem mem_addresses : (m : Match) → {q : List Nat} → q ∈ m.addresses ↔ (m.at? q).isSome = true
  | ⟨c, start, length, index, parts⟩, q => by
      rw [addresses, List.mem_cons, mem_addressesAll parts]
      cases q with
      | nil => simp [at?]
      | cons i q => cases hx : parts[i]? <;> simp [at?, hx]

theorem mem_addressesAll : (parts : List Match) → {i : Nat} → {q : List Nat} →
    q ∈ addressesAll i parts ↔
      ∃ j path x, q = (i + j) :: path ∧ parts[j]? = some x ∧ (x.at? path).isSome = true
  | [], i, q => by simp [addressesAll]
  | m :: rest, i, q => by
      rw [addressesAll, List.mem_append, List.mem_map, mem_addressesAll rest]
      constructor
      · rintro (⟨path, hpath, rfl⟩ | ⟨j, path, x, rfl, hx, hpath⟩)
        · exact ⟨0, path, m, rfl, rfl, (mem_addresses m).mp hpath⟩
        · exact ⟨j + 1, path, x, by rw [Nat.add_right_comm, Nat.add_assoc], hx, hpath⟩
      · rintro ⟨j, path, x, rfl, hx, hpath⟩
        cases j with
        | zero =>
            cases hx
            exact .inl ⟨path, (mem_addresses m).mpr hpath, rfl⟩
        | succ j => exact .inr ⟨j, path, x, by rw [Nat.add_right_comm, Nat.add_assoc], hx, hpath⟩

end

mutual

theorem addresses_sorted : (m : Match) → m.addresses.Pairwise (· < ·)
  | ⟨c, start, length, index, parts⟩ => by
      rw [addresses]
      refine List.pairwise_cons.mpr ⟨fun q hq => ?_, addressesAll_sorted 0 parts⟩
      obtain ⟨j, path, x, rfl, _⟩ := (mem_addressesAll parts).mp hq
      exact List.nil_lt_cons ..

theorem addressesAll_sorted (i : Nat) : (parts : List Match) →
    (addressesAll i parts).Pairwise (· < ·)
  | [] => by simp [addressesAll]
  | m :: rest => by
      rw [addressesAll]
      refine List.pairwise_append.mpr ⟨?_, addressesAll_sorted (i + 1) rest, fun q hq q' hq' => ?_⟩
      · exact List.pairwise_map.mpr ((addresses_sorted m).imp fun h => List.cons_lt_cons_self.mpr h)
      · obtain ⟨path, _, rfl⟩ := List.mem_map.mp hq
        obtain ⟨j, path', x, rfl, _⟩ := (mem_addressesAll rest).mp hq'
        exact List.cons_lt_cons_iff.mpr (.inl (by omega))

end

variable {g : Grammar} {input : Input} {m x : Match} {i : Nat} {q s : List Nat}

theorem at?_append (h : m.at? q = some x) : m.at? (q ++ s) = x.at? s := by
  induction q generalizing m with
  | nil =>
      cases h
      rfl
  | cons i q ih =>
      obtain ⟨y, hy, h⟩ := Option.bind_eq_some_iff.mp h
      rw [List.cons_append, at?, hy]
      exact ih h

theorem labelAt?_cons (hx : m.parts[i]? = some x) (hq : q ≠ []) :
    m.labelAt? g (i :: q) = x.labelAt? g q := by
  cases q with
  | nil => exact absurd rfl hq
  | cons j q => rw [labelAt?, hx, Option.bind_some]

theorem labelAt?_append (h : m.at? q = some x) (hs : s ≠ []) :
    m.labelAt? g (q ++ s) = x.labelAt? g s := by
  induction q generalizing m with
  | nil =>
      cases h
      rfl
  | cons i q ih =>
      obtain ⟨y, hy, h⟩ := Option.bind_eq_some_iff.mp h
      rw [List.cons_append, labelAt?_cons hy (List.append_ne_nil_of_right_ne_nil q hs), ih h]

theorem exists_at_of_labelAt {label : String} (h : m.labelAt? g q = some label) :
    (m.at? q).isSome = true := by
  induction q generalizing m with
  | nil => cases h
  | cons i q ih =>
      cases q with
      | nil =>
          obtain ⟨x, hx, _⟩ := Option.bind_eq_some_iff.mp h
          simp [at?, hx]
      | cons j q =>
          obtain ⟨x, hx, h⟩ := Option.bind_eq_some_iff.mp h
          rw [at?, hx]
          exact ih h

theorem hosts_append_iff (h : m.at? q = some x) :
    m.Hosts g q (q ++ s) ↔ x.Hosts g [] s := by
  constructor
  · intro hhosts
    have hs : s ≠ [] := fun hs => hhosts.proper (by rw [hs, List.append_nil])
    refine ⟨List.nil_prefix, hs.symm, labelAt?_append h hs ▸ hhosts.labelled,
      fun between _ hle hne hne' => ?_⟩
    rw [← labelAt?_append h hne]
    exact hhosts.nearest _ (List.prefix_append ..) ((List.prefix_append_right_inj q).mpr hle)
      (by simpa using hne) (by simpa using hne')
  · intro hhosts
    have hs : s ≠ [] := hhosts.proper.symm
    refine ⟨List.prefix_append .., by simpa using hs, (labelAt?_append h hs).symm ▸ hhosts.labelled,
      fun between hge hle hne hne' => ?_⟩
    obtain ⟨t, rfl⟩ := hge
    have ht : t ≠ [] := by simpa using hne
    rw [labelAt?_append h ht]
    exact hhosts.nearest t List.nil_prefix ((List.prefix_append_right_inj q).mp hle) ht
      (by simpa using hne')

theorem labelAt?_singleton (hx : m.parts[i]? = some x) :
    m.labelAt? g [i] = m.partLabel? g i x := by
  rw [labelAt?, hx, Option.bind_some]

theorem hosts_cons_of_labelled (h : (m.labelAt? g [i]).isSome = true) :
    m.Hosts g [] (i :: q) ↔ q = [] := by
  constructor
  · intro hhosts
    by_contra hq
    rw [hhosts.nearest [i] List.nil_prefix (by simp) (by simp) (by simpa using Ne.symm hq)] at h
    cases h
  · rintro rfl
    refine ⟨List.nil_prefix, by simp, h, fun between _ hle hne hne' => ?_⟩
    rcases List.prefix_cons_iff.mp hle with rfl | ⟨t, rfl, ht⟩
    · exact absurd rfl hne
    · exact absurd (by rw [List.prefix_nil.mp ht]) hne'

theorem hosts_cons_of_unlabelled (hx : m.parts[i]? = some x) (h : m.labelAt? g [i] = none) :
    m.Hosts g [] (i :: q) ↔ x.Hosts g [] q := by
  have hat : m.at? [i] = some x := by rw [at?, hx, Option.bind_some, at?]
  rw [← hosts_append_iff hat, List.singleton_append]
  constructor
  · intro hhosts
    refine ⟨by simp, fun heq => ?_, hhosts.labelled, fun between hge hle hne hne' => ?_⟩
    · have hlabelled := hhosts.labelled
      rw [← heq, h] at hlabelled
      cases hlabelled
    · refine hhosts.nearest between List.nil_prefix hle (fun hnil => ?_) hne'
      rw [hnil, List.prefix_nil] at hge
      cases hge
  · intro hhosts
    refine ⟨List.nil_prefix, by simp, hhosts.labelled, fun between _ hle hne hne' => ?_⟩
    rcases List.prefix_cons_iff.mp hle with rfl | ⟨t, rfl, _⟩
    · exact absurd rfl hne
    · by_cases ht : t = []
      · rw [ht, h]
      · exact hhosts.nearest (i :: t) (by simp) hle (by simpa using ht) hne'

theorem topmost_iff : m.topmost g q = true ↔ m.Hosts g [] q := by
  induction q generalizing m with
  | nil => exact iff_of_false (by simp [topmost]) fun h => h.proper rfl
  | cons i q ih =>
      rw [topmost]
      cases hx : m.parts[i]? with
      | none =>
          refine iff_of_false (by simp) fun h => ?_
          obtain ⟨label, hlabel⟩ := Option.isSome_iff_exists.mp h.labelled
          have hat := exists_at_of_labelAt hlabel
          simp [at?, hx] at hat
      | some x =>
          rw [Option.any_some]
          split
          · rename_i label hlabel
            rw [hosts_cons_of_labelled (by rw [labelAt?_singleton hx, hlabel, Option.isSome_some]),
              List.isEmpty_iff]
          · rename_i hlabel
            rw [hosts_cons_of_unlabelled hx (by rw [labelAt?_singleton hx, hlabel]), ih]

theorem WellFormed.of_at (h : m.WellFormed g input) (hx : m.at? q = some x) :
    x.WellFormed g input := by
  induction q generalizing m with
  | nil =>
      cases hx
      exact h
  | cons i q ih =>
      obtain ⟨y, hy, hx⟩ := Option.bind_eq_some_iff.mp hx
      exact ih (h.of_part (List.mem_of_getElem? hy)) hx

theorem exists_nearest (g : Grammar) (m : Match) (q : List Nat) :
    ∃ above, above <+: q ∧ (above = [] ∨ (m.labelAt? g above).isSome = true) ∧
      ∀ between, above <+: between → between <+: q → between ≠ above →
        m.labelAt? g between = none := by
  induction q using List.reverseRecOn with
  | nil =>
      exact ⟨[], List.nil_prefix, .inl rfl, fun _ _ hle hne => absurd (List.prefix_nil.mp hle) hne⟩
  | append_singleton q i ih =>
      cases hlabel : m.labelAt? g (q ++ [i]) with
      | some label =>
          refine ⟨q ++ [i], List.prefix_rfl, .inr (by rw [hlabel, Option.isSome_some]),
            fun between hge hle hne => absurd (hle.eq_of_length_le hge.length_le) hne⟩
      | none =>
          obtain ⟨above, hle, habove, hnone⟩ := ih
          refine ⟨above, hle.trans (List.prefix_append ..), habove, fun between hge hle hne => ?_⟩
          rcases List.prefix_concat_iff.mp hle with rfl | hle
          · exact hlabel
          · exact hnone between hge hle hne

theorem Hosts.unique {q₁ q₂ : List Nat} (h₁ : m.Hosts g q₁ q) (h₂ : m.Hosts g q₂ q)
    (hroot : q₂ = [] ∨ (m.labelAt? g q₂).isSome = true) (hle : q₁ <+: q₂) : q₂ = q₁ := by
  by_contra hne
  have hnone := h₁.nearest q₂ hle h₂.below hne h₂.proper
  rcases hroot with rfl | hlabelled
  · exact hne (List.prefix_nil.mp hle).symm
  · rw [hnone] at hlabelled
    cases hlabelled

theorem existsUnique_host {q' : List Nat} (h : (m.labelAt? g q').isSome = true) :
    ∃! q, (q = [] ∨ (m.labelAt? g q).isSome = true) ∧ m.Hosts g q q' := by
  rcases List.eq_nil_or_concat' q' with rfl | ⟨init, i, rfl⟩
  · cases h
  · obtain ⟨q, hle, hq, hnone⟩ := exists_nearest g m init
    have hhosts : m.Hosts g q (init ++ [i]) := by
      refine ⟨hle.trans (List.prefix_append ..), fun heq => ?_, h,
        fun between hge hle' hne hne' => ?_⟩
      · have hlength := hle.length_le
        rw [heq, List.length_append, List.length_singleton] at hlength
        omega
      · exact hnone between hge ((List.prefix_concat_iff.mp hle').resolve_left hne') hne
    refine ⟨q, ⟨hq, hhosts⟩, fun q₂ ⟨hq₂, hhosts₂⟩ => ?_⟩
    rcases List.prefix_or_prefix_of_prefix hhosts.below hhosts₂.below with hle | hle
    · exact hhosts.unique hhosts₂ hq₂ hle
    · exact (hhosts₂.unique hhosts hq hle).symm

end Match

namespace Parse

variable {p : Parse} {m x : Match} {i : Nat} {q s : List Nat}

def node? (p : Parse) (m : Match) (q : List Nat) : Option Node :=
  (m.labelAt? p.grammar q).bind fun label => (m.at? q).map (p.tree · label)

theorem node?_nil : p.node? m [] = none := rfl

theorem node?_singleton (hx : m.parts[i]? = some x) :
    p.node? m [i] = (m.partLabel? p.grammar i x).map (p.tree x) := by
  rw [node?, Match.labelAt?_singleton hx, Match.at?, hx, Option.bind_some, Match.at?]
  cases m.partLabel? p.grammar i x <;> rfl

theorem node?_append (hx : m.at? q = some x) (hs : s ≠ []) : p.node? m (q ++ s) = p.node? x s := by
  rw [node?, Match.labelAt?_append hx hs, Match.at?_append hx, node?]

theorem node?_cons (hx : m.parts[i]? = some x) (hq : q ≠ []) :
    p.node? m (i :: q) = p.node? x q := by
  have hat : m.at? [i] = some x := by rw [Match.at?, hx, Option.bind_some, Match.at?]
  exact node?_append hat hq

theorem node?_of_label {label : String} (h : m.labelAt? p.grammar q = some label) :
    p.node? m q = (m.at? q).map (p.tree · label) := by
  rw [node?, h, Option.bind_some]

theorem filterMap_addresses {f : List Nat → Option Node} (hf : f [] = none) (m : Match) :
    m.addresses.filterMap f = m.parts.zipIdx.flatMap fun part =>
      (f [part.2]).toList ++
        (Match.addressesAll 0 part.1.parts).filterMap fun q => f (part.2 :: q) := by
  rw [Match.addresses_eq, List.filterMap_cons_none hf, Match.addressesAll_eq,
    List.filterMap_flatMap]
  refine congrArg (List.flatMap · _) (funext fun part => ?_)
  rw [Match.addresses_eq, List.map_cons, List.filterMap_cons, List.filterMap_map]
  cases f [part.2] <;> rfl

theorem filterMap_below {f f' : List Nat → Option Node} (x : Match)
    (h : ∀ q, q ≠ [] → f q = f' q) :
    (Match.addressesAll 0 x.parts).filterMap f = (Match.addressesAll 0 x.parts).filterMap f' := by
  refine List.filterMap_congr fun q hq => h q ?_
  obtain ⟨j, path, y, rfl, _⟩ := (Match.mem_addressesAll x.parts).mp hq
  simp

theorem filterMap_addresses_of_nil {f : List Nat → Option Node} (hf : f [] = none) (x : Match) :
    x.addresses.filterMap f = (Match.addressesAll 0 x.parts).filterMap f := by
  rw [Match.addresses_eq, List.filterMap_cons_none hf]

theorem getElem?_of_mem_zipIdx {part : Match × Nat} (h : part ∈ m.parts.zipIdx) :
    m.parts[part.2]? = some part.1 :=
  List.mem_zipIdx_iff_getElem?.mp h

theorem contribution_of_label {label : String} (h : m.partLabel? p.grammar i x = some label) :
    m.contribution p.grammar p.input (x, i) = [p.tree x label] := by
  simp only [Match.contribution, h]
  rfl

theorem contribution_of_no_label (h : m.partLabel? p.grammar i x = none) :
    m.contribution p.grammar p.input (x, i) = x.nodes p.grammar p.input := by
  simp only [Match.contribution, h]

-- Below a part without a label the same paths lead on, and a part with one comes before all below.
theorem preorder_nodes : (m : Match) → m.WellFormed p.grammar p.input →
    Node.preorderAll (m.nodes p.grammar p.input) = m.addresses.filterMap (p.node? m)
  | m, h => by
      rw [h.nodes_eq, Node.preorderAll_flatMap, filterMap_addresses node?_nil]
      refine List.flatMap_congr fun part hpart => ?_
      obtain ⟨x, i⟩ := part
      have hx : m.parts[i]? = some x := getElem?_of_mem_zipIdx hpart
      have hmem : x ∈ m.parts := List.mem_of_getElem? hx
      have ih := preorder_nodes x (h.of_part hmem)
      rw [filterMap_addresses_of_nil node?_nil] at ih
      rw [node?_singleton hx, filterMap_below x fun q hq => node?_cons hx hq, ← ih]
      cases hlabel : m.partLabel? p.grammar i x with
      | none =>
          rw [contribution_of_no_label hlabel]
          rfl
      | some label =>
          rw [contribution_of_label hlabel, Node.preorderAll, Node.preorderAll, Node.preorder_eq,
            List.append_nil]
          rfl
  termination_by m => m.height
  decreasing_by exact Match.height_lt_of_mem hmem

def topNode? (p : Parse) (m : Match) (q : List Nat) : Option Node :=
  if m.topmost p.grammar q then p.node? m q else none

theorem topNode?_nil : p.topNode? m [] = none := rfl

theorem topNode?_of_label {label : String} (hx : m.parts[i]? = some x)
    (h : m.partLabel? p.grammar i x = some label) :
    p.topNode? m [i] = some (p.tree x label) ∧ ∀ q, q ≠ [] → p.topNode? m (i :: q) = none := by
  refine ⟨?_, fun q hq => ?_⟩
  · rw [topNode?, node?_singleton hx, h, if_pos (by simp [Match.topmost, hx, h])]
    rfl
  · rw [topNode?, if_neg (by simpa [Match.topmost, hx, h] using hq)]

theorem topNode?_of_no_label (hx : m.parts[i]? = some x) (h : m.partLabel? p.grammar i x = none) :
    p.topNode? m [i] = none ∧ ∀ q, q ≠ [] → p.topNode? m (i :: q) = p.topNode? x q := by
  refine ⟨?_, fun q hq => ?_⟩
  · rw [topNode?, if_neg (by simp [Match.topmost, hx, h])]
  · simp only [topNode?, Match.topmost, hx, h, Option.any_some, node?_cons hx hq]

theorem nodes_eq_topNodes : (m : Match) → m.WellFormed p.grammar p.input →
    m.nodes p.grammar p.input = m.addresses.filterMap (p.topNode? m)
  | m, h => by
      rw [h.nodes_eq, filterMap_addresses topNode?_nil]
      refine List.flatMap_congr fun part hpart => ?_
      obtain ⟨x, i⟩ := part
      have hx : m.parts[i]? = some x := getElem?_of_mem_zipIdx hpart
      have hmem : x ∈ m.parts := List.mem_of_getElem? hx
      have ih := nodes_eq_topNodes x (h.of_part hmem)
      rw [filterMap_addresses_of_nil topNode?_nil] at ih
      cases hlabel : m.partLabel? p.grammar i x with
      | none =>
          obtain ⟨hnone, hbelow⟩ := topNode?_of_no_label (p := p) hx hlabel
          rw [contribution_of_no_label hlabel, hnone, filterMap_below x hbelow, ← ih]
          rfl
      | some label =>
          obtain ⟨hnode, hbelow⟩ := topNode?_of_label (p := p) hx hlabel
          rw [contribution_of_label hlabel, hnode, filterMap_below x hbelow]
          simp
  termination_by m => m.height
  decreasing_by exact Match.height_lt_of_mem hmem

theorem map_some_filterMap {l : List (List Nat)} {f f' : List Nat → Option Node}
    {chosen : List Nat → Bool} (hf : ∀ q ∈ l, f q = if chosen q then f' q else none)
    (hsome : ∀ q ∈ l, chosen q = true → (f' q).isSome = true) :
    (l.filterMap f).map some = (l.filter chosen).map f' := by
  induction l with
  | nil => rfl
  | cons q l ih =>
      obtain ⟨hfq, hf⟩ := List.forall_mem_cons.mp hf
      obtain ⟨hq, hsome⟩ := List.forall_mem_cons.mp hsome
      cases hchosen : chosen q with
      | false =>
          rw [hchosen] at hfq
          rw [List.filterMap_cons_none hfq, List.filter_cons_of_neg (by simp [hchosen]),
            ih hf hsome]
      | true =>
          obtain ⟨n, hn⟩ := Option.isSome_iff_exists.mp (hq hchosen)
          rw [hchosen, if_pos rfl, hn] at hfq
          rw [List.filterMap_cons_some hfq, List.filter_cons_of_pos hchosen, List.map_cons,
            List.map_cons, ih hf hsome, hn]

theorem isSome_node? (h : (m.labelAt? p.grammar q).isSome = true) :
    (p.node? m q).isSome = true := by
  obtain ⟨label, hlabel⟩ := Option.isSome_iff_exists.mp h
  rw [node?_of_label hlabel, Option.isSome_map]
  exact Match.exists_at_of_labelAt hlabel

theorem map_some_nodes (h : m.WellFormed p.grammar p.input) :
    (m.nodes p.grammar p.input).map some =
      (m.addresses.filter (m.topmost p.grammar)).map (p.node? m) := by
  rw [nodes_eq_topNodes m h]
  refine map_some_filterMap (fun q _ => rfl) fun q _ hq => ?_
  exact isSome_node? (Match.topmost_iff.mp hq).labelled

theorem filter_node? (label : String) (q : List Nat) :
    (p.node? m q).filter (·.label = label) =
      if m.labelAt? p.grammar q = some label then (m.at? q).map (p.tree · label) else none := by
  rw [node?]
  cases m.labelAt? p.grammar q with
  | none => rfl
  | some label' =>
      by_cases heq : label' = label
      · subst heq
        cases m.at? q <;> simp [Option.filter, tree]
      · cases m.at? q <;> simp [Option.filter, tree, heq]

theorem map_some_filter_preorder (h : m.WellFormed p.grammar p.input) (label : String) :
    ((Node.preorderAll (m.nodes p.grammar p.input)).filter (·.label = label)).map some =
      (m.addresses.filter fun q => m.labelAt? p.grammar q = some label).map fun q =>
        (m.at? q).map (p.tree · label) := by
  rw [preorder_nodes m h, List.filter_filterMap]
  refine map_some_filterMap (fun q _ => ?_) fun q _ hq => ?_
  · rw [filter_node?]
    simp
  · rw [Option.isSome_map]
    exact Match.exists_at_of_labelAt (of_decide_eq_true hq)

theorem exists_children (h : m.WellFormed p.grammar p.input) (hx : m.at? q = some x)
    (label : String) :
    ∃ below : List (List Nat), below.Pairwise (· < ·) ∧
      (∀ q', q' ∈ below ↔ m.Hosts p.grammar q q') ∧
      (p.tree x label).children.map some = below.map (p.node? m) := by
  refine ⟨(x.addresses.filter (x.topmost p.grammar)).map (q ++ ·), ?_, fun q' => ?_, ?_⟩
  · refine List.pairwise_map.mpr (((Match.addresses_sorted x).filter _).imp fun hlt => ?_)
    exact List.append_left_lt hlt
  · rw [List.mem_map]
    constructor
    · rintro ⟨s, hs, rfl⟩
      exact (Match.hosts_append_iff hx).mpr (Match.topmost_iff.mp (List.mem_filter.mp hs).2)
    · intro hhosts
      obtain ⟨s, rfl⟩ := hhosts.below
      have hhosts := (Match.hosts_append_iff hx).mp hhosts
      obtain ⟨label, hlabel⟩ := Option.isSome_iff_exists.mp hhosts.labelled
      have hs : s ∈ x.addresses := (Match.mem_addresses x).mpr (Match.exists_at_of_labelAt hlabel)
      exact ⟨s, List.mem_filter.mpr ⟨hs, Match.topmost_iff.mpr hhosts⟩, rfl⟩
  · have hwf : x.WellFormed p.grammar p.input := h.of_at hx
    have hbelow : ∀ s ∈ x.addresses.filter (x.topmost p.grammar),
        p.node? x s = p.node? m (q ++ s) := by
      intro s hs
      have hhosts := Match.topmost_iff.mp (List.mem_filter.mp hs).2
      exact (node?_append hx hhosts.proper.symm).symm
    calc (x.nodes p.grammar p.input).map some
        = (x.addresses.filter (x.topmost p.grammar)).map (p.node? x) := map_some_nodes hwf
      _ = (x.addresses.filter (x.topmost p.grammar)).map fun s => p.node? m (q ++ s) :=
          List.map_congr_left hbelow
      _ = _ := by rw [List.map_map]; rfl

theorem exists_found (h : m.WellFormed p.grammar p.input) (root label : String) :
    ∃ (paths : List (List Nat)) (nodes : List Node),
      (p.tree m root).findAll label = (if root = label then [p.tree m root] else []) ++ nodes ∧
        paths.Pairwise (· < ·) ∧ (∀ q, q ∈ paths ↔ m.labelAt? p.grammar q = some label) ∧
        nodes.map some = paths.map fun q => (m.at? q).map (p.tree · label) := by
  refine ⟨_, _, ?_, (Match.addresses_sorted m).filter _, fun q => ?_,
    map_some_filter_preorder h label⟩
  · have hchildren : (p.tree m root).children = m.nodes p.grammar p.input := rfl
    have hlabel : (p.tree m root).label = root := rfl
    rw [Node.findAll_eq, Node.preorder_eq, List.filter_cons, hchildren, hlabel]
    by_cases hroot : root = label <;> simp [hroot]
  · rw [List.mem_filter, decide_eq_true_eq, Match.mem_addresses]
    exact and_iff_right_of_imp Match.exists_at_of_labelAt

theorem labelled_matches_become_nodes {source : Source} {g : Grammar} (h : source.compile = .ok g)
    (input : String) (limit : Option Nat) {m : Match} (hm : (ofString g input limit).Returns m)
    (root : String) :
    let p := ofString g input limit
    (∀ label, ∃ (paths : List (List Nat)) (nodes : List Node),
        (p.tree m root).findAll label = (if root = label then [p.tree m root] else []) ++ nodes ∧
          paths.Pairwise (· < ·) ∧ (∀ q, q ∈ paths ↔ m.labelAt? g q = some label) ∧
          nodes.map some = paths.map fun q => (m.at? q).map (p.tree · label)) ∧
      (∀ q', (m.labelAt? g q').isSome = true →
        ∃! q, (q = [] ∨ (m.labelAt? g q).isSome = true) ∧ m.Hosts g q q') ∧
      ∀ q x label, m.at? q = some x →
        ∃ below : List (List Nat), below.Pairwise (· < ·) ∧ (∀ q', q' ∈ below ↔ m.Hosts g q q') ∧
          (p.tree x label).children.map some = below.map (p.node? m) := by
  intro p
  have hgrammar : p.grammar = g := grammar_ofString g input limit
  have hwf := hm.wellFormed (sound_ofString (Source.compile_lawful h) input limit)
  refine ⟨fun label => ?_, fun q' => Match.existsUnique_host, fun q x label hx => ?_⟩
  · have hfound := exists_found hwf root label
    rwa [hgrammar] at hfound
  · have hbelow := exists_children hwf hx label
    rwa [hgrammar] at hbelow

theorem both_numbers_are_found :
    ∃ (g : Grammar) (m : Match) (paths : List (List Nat)), Sample.arithmetic.compile = .ok g ∧
      (ofString g "1+23" (some 8)).Returns m ∧
      (((ofString g "1+23" (some 8)).tree m "sum").findAll "num").map (·.text) = ["1", "23"] ∧
      paths.length = 2 ∧ ∀ q, q ∈ paths ↔ m.labelAt? g q = some "num" := by
  have hrun : (Sample.arithmetic.compile.toOption.any fun g =>
      ((ofString g "1+23" (some 8)).nonOverlapping "Sum").toOption.any fun found =>
        found.any fun m => (((ofString g "1+23" (some 8)).tree m "sum").preorder.filter
          (·.label = "num")).map (·.text) = ["1", "23"]) = true := by
    decide +kernel
  obtain ⟨g, hg, hrun⟩ := Source.exists_of_compile_any hrun
  obtain ⟨found, hmatches, hrun⟩ := exists_of_toOption_any hrun
  obtain ⟨m, hmem, hrun⟩ := List.any_eq_true.mp hrun
  have hm := Returns.nonOverlapping hmatches hmem
  obtain ⟨paths, nodes, hfound, _, hpaths, hnodes⟩ :=
    (labelled_matches_become_nodes hg "1+23" (some 8) hm "sum").1 "num"
  have htexts := of_decide_eq_true hrun
  rw [← Node.findAll_eq] at htexts
  rw [if_neg (by decide), List.nil_append] at hfound
  have hlength : paths.length = 2 := by
    have hpaths := congrArg List.length hnodes
    have hcount := congrArg List.length htexts
    rw [hfound] at hcount
    simp only [List.length_map, List.length_cons, List.length_nil] at hpaths hcount
    omega
  exact ⟨g, m, paths, hg, hm, htexts, hlength, hpaths⟩

end Parse

end BottomUpPeg
