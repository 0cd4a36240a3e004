import VRGram.Lib.Strings

/-!
# File paths

`filepath.Join` on a system whose separator is the slash: the parts that are not empty
are joined and the result is cleaned of empty, `.` and `..` components. A file whose name has
slashes in it stays below a directory only if what is in front of its last slash leads back there.
Other systems, where the backslash separates as well or a path starts with a volume, are not covered.
-/
namespace VRGram.Lib.Paths

open VRGram.Lib.Strings

set_option autoImplicit false

def slash : UInt8 := 47

/-- One component of `filepath.Clean`, onto the components kept so far (last one first). -/
def cleanStep (rooted : Bool) (kept : List Bytes) (part : Bytes) : List Bytes :=
  if part = [] ∨ part = lit "." then kept
  else if part = lit ".." then
    match kept with
    | [] => if rooted then [] else [part]
    | last :: rest => if last = lit ".." then part :: kept else rest
  else part :: kept

/-- `filepath.Clean` of the slash systems. -/
def clean (path : Bytes) : Bytes :=
  let rooted := path.head? == some slash
  let kept := ((split slash path).foldl (cleanStep rooted) []).reverse
  if rooted then slash :: join slash kept
  else if kept = [] then lit "." else join slash kept

/-- `filepath.Join` of the slash systems. -/
def joinPath (parts : List Bytes) : Bytes :=
  match parts.filter (fun part => part ≠ []) with
  | [] => []
  | parts => clean (join slash parts)

example : joinPath [lit "/data", lit "peer_bios", lit "../../x.json"] = lit "/x.json" := by
  decide +kernel

/-! ## What a cleaned path looks like -/

def isRooted (path : Bytes) : Bool := path.head? == some slash

/-- The components that cleaning keeps, the last one first. -/
def kept (path : Bytes) : List Bytes := (split slash path).foldl (cleanStep (isRooted path)) []

def render (rooted : Bool) (components : List Bytes) : Bytes :=
  if rooted then slash :: join slash components.reverse
  else if components = [] then lit "." else join slash components.reverse

/-- A name of a file or a directory in its parent. -/
def ProperName (c : Bytes) : Prop := c ≠ [] ∧ c ≠ lit "." ∧ c ≠ lit ".." ∧ slash ∉ c

/-- What can stand after cleaning, the last component first: names, and below them `..`
components if the path is relative. -/
def Settled (rooted : Bool) : List Bytes → Prop
  | [] => True
  | c :: below => Settled rooted below ∧
      (ProperName c ∨ (c = lit ".." ∧ rooted = false ∧ ∀ b ∈ below.head?, b = lit ".."))

theorem clean_eq (path : Bytes) : clean path = render (isRooted path) (kept path) := by
  have hnil : (kept path).reverse = [] ↔ kept path = [] := List.reverse_eq_nil_iff
  show (if isRooted path then slash :: join slash (kept path).reverse
    else if (kept path).reverse = [] then lit "." else join slash (kept path).reverse) = _
  rw [render]
  split
  · rfl
  · exact if_congr hnil rfl rfl

theorem cleanStep_proper {c : Bytes} (h : ProperName c) (rooted : Bool) (below : List Bytes) :
    cleanStep rooted below c = c :: below := by
  obtain ⟨hne, hdot, hdots, -⟩ := h
  have hkeep : ¬ (c = [] ∨ c = lit ".") := by
    rintro (h | h)
    · exact hne h
    · exact hdot h
  unfold cleanStep
  rw [if_neg hkeep, if_neg hdots]

private theorem settled_cleanStep {rooted : Bool} {below : List Bytes} (h : Settled rooted below)
    {c : Bytes} (hc : slash ∉ c) : Settled rooted (cleanStep rooted below c) := by
  by_cases hskip : c = [] ∨ c = lit "."
  · unfold cleanStep
    rw [if_pos hskip]
    exact h
  · by_cases hup : c = lit ".."
    · unfold cleanStep
      rw [if_neg hskip, if_pos hup]
      cases below with
      | nil =>
        cases rooted with
        | true => trivial
        | false => exact ⟨trivial, Or.inr ⟨hup, rfl, by simp⟩⟩
      | cons b rest =>
        obtain ⟨hrest, hb⟩ := h
        dsimp only
        split
        next hdots =>
          refine ⟨⟨hrest, hb⟩, Or.inr ⟨hup, ?_, ?_⟩⟩
          · rcases hb with hproper | ⟨-, hrooted, -⟩
            · exact absurd hdots hproper.2.2.1
            · exact hrooted
          · intro x hx
            obtain rfl := Option.some.inj hx
            exact hdots
        next => exact hrest
    · have hproper : ProperName c := ⟨fun h => hskip (Or.inl h), fun h => hskip (Or.inr h), hup, hc⟩
      rw [cleanStep_proper hproper]
      exact ⟨h, Or.inl hproper⟩

theorem settled_follow {rooted : Bool} {below parts : List Bytes} (h : Settled rooted below)
    (hparts : ∀ p ∈ parts, slash ∉ p) : Settled rooted (parts.foldl (cleanStep rooted) below) := by
  induction parts generalizing below with
  | nil => exact h
  | cons p rest ih =>
    obtain ⟨hp, hrest⟩ := List.forall_mem_cons.mp hparts
    exact ih (settled_cleanStep h hp) hrest

theorem settled_kept (path : Bytes) : Settled (isRooted path) (kept path) :=
  settled_follow trivial (fun _ hp => (mem_split hp).1)

/-- Cleaning keeps what is clean. -/
theorem follow_settled {rooted : Bool} {components : List Bytes} (h : Settled rooted components) :
    components.reverse.foldl (cleanStep rooted) [] = components := by
  induction components with
  | nil => rfl
  | cons c below ih =>
    obtain ⟨hbelow, hc⟩ := h
    rw [List.reverse_cons, List.foldl_append, ih hbelow, List.foldl_cons, List.foldl_nil]
    rcases hc with hproper | ⟨rfl, rfl, hdots⟩
    · exact cleanStep_proper hproper rooted below
    · cases below with
      | nil => rfl
      | cons b rest =>
        obtain rfl : b = lit ".." := hdots b rfl
        rfl

theorem settled_notMem {rooted : Bool} {components : List Bytes} (h : Settled rooted components) :
    ∀ c ∈ components, slash ∉ c ∧ c ≠ [] := by
  induction components with
  | nil => exact fun c hc => absurd hc List.not_mem_nil
  | cons c below ih =>
    obtain ⟨hbelow, hc⟩ := h
    refine List.forall_mem_cons.mpr ⟨?_, ih hbelow⟩
    rcases hc with hproper | ⟨rfl, -, -⟩
    · exact ⟨hproper.2.2.2, hproper.1⟩
    · decide

/-- The components of a path that was rendered, the empty one in front of the root included. -/
theorem split_render {rooted : Bool} {components : List Bytes} (h : Settled rooted components)
    (hne : components ≠ []) :
    split slash (render rooted components) =
      (if rooted then [[]] else []) ++ components.reverse := by
  have hjoin : split slash (join slash components.reverse) = components.reverse :=
    split_join (fun c hc => (settled_notMem h c (List.mem_reverse.mp hc)).1)
      (by simpa using hne)
  cases rooted with
  | true =>
    have hroot : split slash ([] ++ slash :: join slash components.reverse) =
        [] :: split slash (join slash components.reverse) := split_append List.not_mem_nil _
    rw [hjoin] at hroot
    exact hroot
  | false =>
    rw [render, if_neg Bool.false_ne_true, if_neg hne, if_neg Bool.false_ne_true, hjoin]
    rfl

private theorem isRooted_render {rooted : Bool} {components : List Bytes}
    (h : Settled rooted components)
    (hne : components ≠ []) : isRooted (render rooted components) = rooted := by
  cases rooted with
  | true => rfl
  | false =>
    rw [render, if_neg Bool.false_ne_true, if_neg hne]
    have hrev : components.reverse ≠ [] := by simpa using hne
    obtain ⟨c, rest, hcons⟩ := List.exists_cons_of_ne_nil hrev
    obtain ⟨hslash, hcne⟩ := settled_notMem h c (by rw [← List.mem_reverse, hcons]; simp)
    obtain ⟨b, more, rfl⟩ := List.exists_cons_of_ne_nil hcne
    have hb : b ≠ slash := fun h => hslash (by rw [h]; exact List.mem_cons_self)
    have hhead : (join slash components.reverse).head? = some b := by
      rw [hcons]
      cases rest <;> rfl
    rw [isRooted, hhead]
    simpa using hb

/-- A directory that cleaning has named, other than the root and the current directory. -/
def CleanDir (dir : Bytes) : Prop :=
  ∃ rooted components, Settled rooted components ∧ components ≠ [] ∧
    dir = render rooted components

/-- Where components lead from a directory, the last one first. -/
def follow (dir : Bytes) (parts : List Bytes) : List Bytes :=
  parts.foldl (cleanStep (isRooted dir)) (kept dir)

def LeadsBack (dir : Bytes) (parts : List Bytes) : Prop := follow dir parts = kept dir

/-- A path one component below a directory. -/
def IsChild (dir path : Bytes) : Prop := ∃ name, ProperName name ∧ path = dir ++ slash :: name

instance (dir : Bytes) (parts : List Bytes) : Decidable (LeadsBack dir parts) :=
  inferInstanceAs (Decidable (_ = _))

section Directory

variable {dir : Bytes} (h : CleanDir dir)

include h

theorem CleanDir.render_kept : render (isRooted dir) (kept dir) = dir ∧ kept dir ≠ [] := by
  obtain ⟨rooted, components, hsettled, hne, rfl⟩ := h
  have hroot := isRooted_render hsettled hne
  have hkept : kept (render rooted components) = components := by
    rw [kept, hroot, split_render hsettled hne, List.foldl_append]
    have hempty : (if rooted then [[]] else []).foldl (cleanStep rooted) [] = [] := by
      cases rooted <;> rfl
    rw [hempty, follow_settled hsettled]
  rw [hroot, hkept]
  exact ⟨rfl, hne⟩

theorem CleanDir.ne_nil : dir ≠ [] := by
  obtain ⟨rooted, components, hsettled, hne, rfl⟩ := h
  intro hnil
  have hsplit := split_render hsettled hne
  rw [hnil] at hsplit
  have hmem : ([] : Bytes) ∈ components := by
    cases rooted with
    | true =>
      have hlen := congrArg List.length hsplit
      simp [split] at hlen
      exact absurd hlen hne
    | false =>
      rw [if_neg Bool.false_ne_true, List.nil_append] at hsplit
      rw [← List.mem_reverse, ← hsplit]
      simp [split]
  exact (settled_notMem hsettled _ hmem).2 rfl

/-- The path of a name in a directory: the last component stays, after those that the ones in
front of it lead to. -/
theorem joinPath_under {name last : Bytes} {parts : List Bytes}
    (hsplit : split slash name = parts ++ [last]) (hlast : ProperName last) :
    joinPath [dir, name] = render (isRooted dir) (last :: follow dir parts) := by
  obtain ⟨b, more, hdir⟩ := List.exists_cons_of_ne_nil h.ne_nil
  have hname : name ≠ [] := by
    rintro rfl
    have hend : some last = some [] := by
      calc some last = (parts ++ [last]).getLast? := List.getLast?_concat.symm
        _ = (split slash []).getLast? := by rw [hsplit]
        _ = some [] := rfl
    exact hlast.1 (Option.some.inj hend)
  have hroot : isRooted (dir ++ slash :: name) = isRooted dir := by
    rw [hdir]
    rfl
  have hkept : kept (dir ++ slash :: name) = last :: follow dir parts := by
    rw [kept, hroot, split_append_split, List.foldl_append, hsplit, List.foldl_append]
    exact cleanStep_proper hlast _ _
  have hjoin : joinPath [dir, name] = clean (dir ++ slash :: name) := by
    simp only [joinPath, List.filter_cons, h.ne_nil, hname, ne_eq, not_false_eq_true, decide_true,
      if_true, List.filter_nil]
    simp [join, List.intercalate]
  rw [hjoin, clean_eq, hroot, hkept]

theorem render_cons_kept (last : Bytes) :
    render (isRooted dir) (last :: kept dir) = dir ++ slash :: last := by
  obtain ⟨hdir, hne⟩ := h.render_kept
  have hrev : (kept dir).reverse ≠ [] := by simpa using hne
  have hcons : join slash (last :: kept dir).reverse =
      join slash (kept dir).reverse ++ slash :: last := by
    rw [List.reverse_cons, join_concat hrev]
  conv => rhs; rw [← hdir]
  rw [render, render, hcons, if_neg (List.cons_ne_nil _ _), if_neg hne]
  cases isRooted dir <;> rfl

/-- A file of a directory is written into it exactly if the components in front of its name
lead back. -/
theorem isChild_iff {name last : Bytes} {parts : List Bytes}
    (hsplit : split slash name = parts ++ [last]) (hlast : ProperName last) :
    IsChild dir (joinPath [dir, name]) ↔ LeadsBack dir parts := by
  rw [joinPath_under h hsplit hlast]
  constructor
  · intro hchild
    obtain ⟨other, hother, hpath⟩ := hchild
    rw [← render_cons_kept h other] at hpath
    have hparts : ∀ p ∈ parts, slash ∉ p := by
      intro p hp
      have hmem : p ∈ split slash name := by
        rw [hsplit]
        exact List.mem_append_left _ hp
      exact (mem_split hmem).1
    have hthere : Settled (isRooted dir) (last :: follow dir parts) :=
      ⟨settled_follow (settled_kept dir) hparts, Or.inl hlast⟩
    have hhere : Settled (isRooted dir) (other :: kept dir) := ⟨settled_kept dir, Or.inl hother⟩
    have hsame := congrArg (split slash) hpath
    rw [split_render hthere (List.cons_ne_nil _ _), split_render hhere (List.cons_ne_nil _ _)]
      at hsame
    have hrev := List.reverse_inj.mp (List.append_cancel_left hsame)
    exact (List.cons.inj hrev).2
  · intro hback
    rw [LeadsBack] at hback
    rw [hback, render_cons_kept h]
    exact ⟨last, hlast, rfl⟩

theorem joinPath_leadsBack {name last : Bytes} {parts : List Bytes}
    (hsplit : split slash name = parts ++ [last]) (hlast : ProperName last)
    (hback : LeadsBack dir parts) : joinPath [dir, name] = dir ++ slash :: last := by
  rw [joinPath_under h hsplit hlast, show follow dir parts = kept dir from hback,
    render_cons_kept h]

end Directory

/-- A name joined to any path is a directory with that name. -/
theorem cleanDir_joinPath (path : Bytes) {name : Bytes} (h : ProperName name) :
    CleanDir (joinPath [path, name]) := by
  have hname : split slash name = [name] := split_of_notMem h.2.2.2
  by_cases hempty : path = []
  · have hjoin : joinPath [path, name] = clean name := by
      simp [joinPath, hempty, h.1, join, List.intercalate]
    have hkept : kept name = [name] := by
      rw [kept, hname]
      exact cleanStep_proper h _ _
    rw [hjoin, clean_eq]
    exact ⟨_, _, settled_kept name, by rw [hkept]; exact List.cons_ne_nil _ _, rfl⟩
  · have hjoin : joinPath [path, name] = clean (path ++ slash :: name) := by
      simp [joinPath, hempty, h.1, join, List.intercalate]
    have hkept : ∃ below, kept (path ++ slash :: name) = name :: below := by
      rw [kept, split_append_split, hname, List.foldl_append]
      exact ⟨_, cleanStep_proper h _ _⟩
    obtain ⟨below, hkept⟩ := hkept
    rw [hjoin, clean_eq]
    exact ⟨_, _, settled_kept _, by rw [hkept]; exact List.cons_ne_nil _ _, rfl⟩

/-! ## The last component of a name -/

/-- The components in front of the last one. -/
def parents (s : Bytes) : List Bytes := (split slash s).dropLast

/-- What follows the last slash. -/
def base (s : Bytes) : Bytes := (split slash s).getLastD []

theorem split_eq_parents_base (s : Bytes) : split slash s = parents s ++ [base s] := by
  have hne := split_ne_nil slash s
  rw [parents, base, List.getLastD_eq_getLast?, List.getLast?_eq_some_getLast hne,
    Option.getD_some, List.dropLast_concat_getLast]

/-- An ending without a slash stays at the last component. -/
theorem split_append_ending (s : Bytes) {ending : Bytes} (h : slash ∉ ending) :
    split slash (s ++ ending) = parents s ++ [base s ++ ending] := by
  have hsplit := split_eq_parents_base s
  have hpieces : ∀ p ∈ parents s ++ [base s], slash ∉ p := by
    intro p hp
    rw [← hsplit] at hp
    exact (mem_split hp).1
  have hjoin : s ++ ending = join slash (parents s ++ [base s ++ ending]) := by
    conv => lhs; rw [← join_split slash s, hsplit]
    by_cases hnil : parents s = []
    · simp [hnil, join, List.intercalate]
    · rw [join_concat hnil, join_concat hnil, List.append_assoc, List.cons_append]
  rw [hjoin]
  refine split_join ?_ (by simp)
  intro p hp
  rcases List.mem_append.mp hp with hp | hp
  · exact hpieces p (List.mem_append_left _ hp)
  · obtain rfl := List.mem_singleton.mp hp
    rw [List.mem_append]
    rintro (hbase | hending)
    · exact hpieces _ (List.mem_append_right _ (List.mem_singleton.mpr rfl)) hbase
    · exact h hending

/-- Components that are names or empty lead back only if all are empty. -/
theorem leadsBack_plain_iff (dir : Bytes) {parts : List Bytes}
    (h : ∀ p ∈ parts, p = [] ∨ ProperName p) : LeadsBack dir parts ↔ ∀ p ∈ parts, p = [] := by
  have hfold : ∀ below : List Bytes, parts.foldl (cleanStep (isRooted dir)) below =
      (parts.filter (fun p => p ≠ [])).reverse ++ below := by
    induction parts with
    | nil => exact fun _ => rfl
    | cons p rest ih =>
      obtain ⟨hp, hrest⟩ := List.forall_mem_cons.mp h
      intro below
      rw [List.foldl_cons, ih hrest]
      rcases hp with rfl | hproper
      · rfl
      · rw [cleanStep_proper hproper]
        simp [hproper.1]
  rw [LeadsBack, follow, hfold]
  simp [List.filter_eq_nil_iff]

end VRGram.Lib.Paths
