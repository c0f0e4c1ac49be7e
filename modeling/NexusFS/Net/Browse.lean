/- GID: NexusFS/Net/Browse
   source: crates/core/src/ops.rs
   digest: A node that only it writes to lists and measures exactly its file tree. -/

import NexusFS.Net.Tree

/-!
A listing is flat: it shows every path below a directory as text. Its texts are read back as paths
because no name has a slash.
-/

set_option autoImplicit false
set_option relaxedAutoImplicit false

namespace NexusFS.Net

open NexusFS.Lib NexusFS.Lib.Effect NexusFS.Proto NexusFS.Core NexusFS.Crdt CoreState

section Text

def joined (base : String) (names : List String) : String :=
  names.foldl (fun text name => text ++ "/" ++ name) base

theorem joined_concat (base : String) (names : List String) (name : String) :
    joined base (names ++ [name]) = joined base names ++ "/" ++ name := by
  unfold joined
  rw [List.foldl_append]
  rfl

theorem joined_cons (base name : String) (names : List String) :
    joined base (name :: names) = joined (base ++ "/" ++ name) names := rfl

private theorem last_slash {a b m n : List Char} (plain : '/' ∉ m) (plain' : '/' ∉ n)
    (same : a ++ '/' :: m = b ++ '/' :: n) : a = b ∧ m = n := by
  have turned := congrArg List.reverse same
  simp only [List.reverse_append, List.reverse_cons, List.append_assoc, List.singleton_append] at turned
  have cut : ∀ {x y u v : List Char}, '/' ∉ x → '/' ∉ y → x ++ '/' :: u = y ++ '/' :: v → x = y ∧ u = v := by
    intro x
    induction x with
    | nil =>
        intro y u v _ whole equal
        cases y with
        | nil => exact ⟨rfl, (List.cons.inj equal).2⟩
        | cons c y => exact absurd ((List.cons.inj equal).1 ▸ List.mem_cons_self) whole
    | cons c x ih =>
        intro y u v whole whole' equal
        cases y with
        | nil => exact absurd ((List.cons.inj equal).1 ▸ List.mem_cons_self) whole
        | cons d y =>
            obtain ⟨rfl, rest⟩ := List.cons.inj equal
            obtain ⟨rfl, rfl⟩ := ih (fun inside => whole (List.mem_cons_of_mem _ inside))
              (fun inside => whole' (List.mem_cons_of_mem _ inside)) rest
            exact ⟨rfl, rfl⟩
  obtain ⟨names, fronts⟩ := cut (by simpa using plain) (by simpa using plain') turned
  exact ⟨List.reverse_injective fronts, List.reverse_injective names⟩

theorem joined_injective {base : String} {names others : List String}
    (plain : ∀ name ∈ names, '/' ∉ name.toList) (plain' : ∀ name ∈ others, '/' ∉ name.toList)
    (same : joined base names = joined base others) : names = others := by
  have longer : ∀ {l : List String} {name : String}, joined base (l ++ [name]) ≠ base := by
    intro l name equal
    have grows : ∀ l : List String, base.length ≤ (joined base l).length := by
      intro l
      induction l using List.reverseRecOn with
      | nil => exact le_rfl
      | append_singleton l name ih =>
          rw [joined_concat, String.length_append, String.length_append]
          omega
    have length := congrArg String.length equal
    rw [joined_concat, String.length_append, String.length_append] at length
    have below := grows l
    have slash : "/".length = 1 := rfl
    rw [slash] at length
    omega
  induction names using List.reverseRecOn generalizing others with
  | nil =>
      rcases List.eq_nil_or_concat' others with rfl | ⟨l, name, rfl⟩
      · rfl
      · exact absurd same.symm longer
  | append_singleton names name ih =>
      rcases List.eq_nil_or_concat' others with rfl | ⟨l, other, rfl⟩
      · exact absurd same longer
      · rw [joined_concat, joined_concat] at same
        have chars := congrArg String.toList same
        have slash : "/".toList = ['/'] := rfl
        simp only [String.toList_append, slash, List.append_assoc, List.singleton_append] at chars
        obtain ⟨front, last⟩ := last_slash (plain name (by simp)) (plain' other (by simp)) chars
        rw [ih (fun n inside => plain n (by simp [inside])) (fun n inside => plain' n (by simp [inside]))
          (String.toList_injective front), String.toList_injective last]

end Text

section Walked

variable {s : CoreState} {inode : U128} {base : String} {depth : Nat}

def ShownBelow (s : CoreState) (a : U128 × EntryType) (base : String) (depth : Nat) (x : WalkEntry) : Prop :=
  ∃ front p e, Walks (Edge s) a front (p, .dir) ∧ s.lookup p e.name = some e ∧
    x = walkEntryFor s (joined base (front ++ [e.name])) (depth + front.length) e

theorem shownBelow_iff {x : WalkEntry} : ShownBelow s (inode, .dir) base depth x ↔
    ∃ e, s.lookup inode e.name = some e ∧ (x = walkEntryFor s (base ++ "/" ++ e.name) depth e ∨
      (e.entry_type = .dir ∧ ShownBelow s (e.inode_id, .dir) (base ++ "/" ++ e.name) (depth + 1) x)) := by
  constructor
  · rintro ⟨front, p, e, walk, found, rfl⟩
    cases front with
    | nil =>
        obtain rfl : p = inode := congrArg Prod.fst (Walks.nil_iff.mp walk)
        exact ⟨e, found, .inl rfl⟩
    | cons name front =>
        obtain ⟨_, ⟨-, next, first, rfl⟩, rest⟩ := Walks.cons_iff.mp walk
        have named : next.name = name := by
          rw [lookup_eq_findEntry] at first
          exact (mem_of_findEntry first).2
        subst named
        have dir : next.entry_type = .dir := by
          cases kind : next.entry_type with
          | dir => rfl
          | file =>
              rw [kind] at rest
              cases front with
              | nil => cases Walks.nil_iff.mp rest
              | cons l front =>
                  obtain ⟨_, ⟨isDir, -⟩, -⟩ := Walks.cons_iff.mp rest
                  cases isDir
        rw [dir] at rest
        refine ⟨next, first, .inr ⟨dir, front, p, e, rest, found, ?_⟩⟩
        rw [List.cons_append, joined_cons, List.length_cons, Nat.add_right_comm, Nat.add_assoc]
  · rintro ⟨e, found, rfl | ⟨dir, front, p, last, walk, found', rfl⟩⟩
    · exact ⟨[], inode, e, .here _, found, rfl⟩
    · refine ⟨e.name :: front, p, last, Walks.cons_iff.mpr ⟨_, ⟨rfl, e, found, rfl⟩, ?_⟩, found', ?_⟩
      · rw [dir]
        exact walk
      · rw [List.cons_append, joined_cons, List.length_cons, Nat.add_right_comm, Nat.add_assoc]

/-- The recursion of `walk` shows what is below the directory. -/
theorem walkInto_shows (sole : Sole s) (fuel : Nat) (out out' : List WalkEntry)
    (run : walkInto s fuel inode base depth out = .ok out') :
    ∃ extra, out' = out ++ extra ∧ ∀ x, x ∈ extra ↔ ShownBelow s (inode, .dir) base depth x := by
  induction fuel generalizing inode base depth out out' with
  | zero => cases run
  | succ fuel ih =>
      unfold walkInto at run
      split at run
      · cases run
      · have entries : ∀ (l : List DirEntry) (out : List WalkEntry),
            l.foldlM (walkStep s (walkInto s fuel) base depth) out = .ok out' →
              ∃ extra, out' = out ++ extra ∧ ∀ x, x ∈ extra ↔ ∃ e ∈ l,
                x = walkEntryFor s (base ++ "/" ++ e.name) depth e ∨ (e.entry_type = .dir ∧
                  ShownBelow s (e.inode_id, .dir) (base ++ "/" ++ e.name) (depth + 1) x) := by
          intro l
          induction l with
          | nil =>
              intro out run
              refine ⟨[], ?_, by simp⟩
              simpa using (Except.ok.inj run).symm
          | cons e l later =>
              intro out run
              rw [List.foldlM_cons] at run
              obtain ⟨mid, step, run⟩ := Effect.bind_eq_ok.mp run
              obtain ⟨rest, rfl, shows_rest⟩ := later mid run
              obtain ⟨first, rfl, shows_first⟩ : ∃ first, mid = out ++ first ∧ ∀ x, x ∈ first ↔
                  x = walkEntryFor s (base ++ "/" ++ e.name) depth e ∨ (e.entry_type = .dir ∧
                    ShownBelow s (e.inode_id, .dir) (base ++ "/" ++ e.name) (depth + 1) x) := by
                unfold walkStep at step
                dsimp only at step
                split at step
                · rename_i dir
                  obtain ⟨below, rfl, shows_below⟩ := ih _ _ step
                  refine ⟨walkEntryFor s (base ++ "/" ++ e.name) depth e :: below, by simp, fun x => ?_⟩
                  rw [List.mem_cons, shows_below]
                  simp [dir]
                · rename_i file
                  refine ⟨[walkEntryFor s (base ++ "/" ++ e.name) depth e], (Except.ok.inj step).symm, ?_⟩
                  simp [file]
              refine ⟨first ++ rest, by simp, fun x => ?_⟩
              rw [List.mem_append, shows_first, shows_rest]
              simp only [List.mem_cons, exists_eq_or_imp]
        obtain ⟨extra, rfl, shows_it⟩ := entries _ _ run
        refine ⟨extra, rfl, fun x => ?_⟩
        rw [shows_it, shownBelow_iff]
        simp only [sole.mem_materializeDir]

end Walked

section Named

variable {env : Env} {identity : Identity} {device : DeviceId} {last : Nat} {clock : U64} {s : CoreState}
  {tree : FileTree String Bytes}

def Named (tree : FileTree String Bytes) : Prop :=
  ∀ path, tree path ≠ none → ∀ name ∈ path, ValidName name

theorem Request.valid_components (path : String) : ∀ name ∈ Request.components path, ValidName name := by
  unfold Request.components
  cases split : splitPath path with
  | error e => simp [Except.toOption]
  | ok parts => exact valid_of_splitPath split

theorem named_mkdirs (named : Named tree) {dirs : List String} (valid : ∀ name ∈ dirs, ValidName name) :
    Named (tree.mkdirs dirs) := by
  intro path there name inside
  unfold FileTree.mkdirs at there
  split at there
  · rename_i made
    exact valid name (made.1.subset inside)
  · exact named path there name inside

theorem Request.named (named : Named tree) (r : Request) : Named (r.act tree) := by
  cases r with
  | mkdir path => exact named_mkdirs named (valid_components path)
  | write path data =>
      have valid := valid_components path
      intro other there name inside
      unfold Request.act FileTree.put FileTree.make at there
      dsimp only at there
      split at there
      · rename_i same
        exact valid name (same ▸ inside)
      · exact named_mkdirs named (fun name inside => valid name (List.dropLast_subset _ inside)) other there
          name inside
  | remove path =>
      intro other there
      unfold Request.act FileTree.remove at there
      dsimp only at there
      split at there
      · exact absurd rfl there
      · exact named other there
  | rename source target =>
      intro other there name inside
      unfold Request.act FileTree.move at there
      dsimp only at there
      split at there
      · rename_i moved
        obtain ⟨rest, rfl⟩ := moved
        rw [List.drop_left] at there
        rcases List.mem_append.mp inside with front | back
        · exact valid_components target name front
        · exact named _ there name (List.mem_append_right _ back)
      · split at there
        · exact absurd rfl there
        · exact named other there name inside

theorem SoloRun.named (run : SoloRun env identity device last clock tree s) : Named tree := by
  induction run with
  | boot =>
      intro path there name inside
      unfold FileTree.bare at there
      split at there
      · rename_i root
        rw [root] at inside
        cases inside
      · exact absurd rfl there
  | step _ _ _ ih => exact Request.named ih _

end Named

section Shown

variable {env : Env} {identity : Identity} {device : DeviceId} {last : Nat} {clock : U64} {s : CoreState}
  {tree : FileTree String Bytes} {path : String} {parts : List String}

def ShowsNode (x : WalkEntry) : Option (Node Bytes) → Prop
  | none => False
  | some .dir => x.kind = .dir ∧ x.size = 0
  | some (.file data) => x.kind = .file ∧ x.size.val = data.length

theorem Bears.file (bears : Bears env last clock tree s) {inode : U128}
    (walk : Walks (Edge s) rootNode parts (inode, .file)) :
    ∃ record data, s.loadInode inode = some record ∧ tree parts = some (.file data) ∧
      record.content.value.size.val = data.length := by
  obtain ⟨node, labelled⟩ := bears.holds.total walk
  have here := (bears.holds.eq_label walk).trans labelled
  unfold treeNode at labelled
  dsimp only at labelled
  split at labelled
  · rename_i data read
    obtain ⟨record, found, isFile⟩ : ∃ record, s.loadInode inode = some record ∧ record.kind = .file := by
      unfold readFile at read
      split at read
      · cases read
      · rename_i record found
        split at read
        · cases read
        · rename_i isFile
          exact ⟨record, found, not_not.mp isFile⟩
    obtain ⟨bytes, other, read', found', size⟩ := bears.measured ⟨record, found, isFile, rfl⟩
    cases found.symm.trans found'
    cases read.symm.trans read'
    exact ⟨record, data, found, here.trans labelled.symm, size.symm⟩
  · cases labelled

theorem Bears.below_file (bears : Bears env last clock tree s) {data : Bytes}
    (file : tree parts = some (.file data)) {back : List String} (filled : back ≠ []) :
    tree (parts ++ back) = none := by
  refine bears.holds.none_iff.mpr fun y walk => ?_
  obtain ⟨b, first, rest⟩ := Walks.append_iff.mp walk
  have labelled := (bears.holds.eq_label first).symm.trans file
  obtain ⟨name, more, rfl⟩ := List.exists_cons_of_ne_nil filled
  obtain ⟨_, ⟨dir, -⟩, -⟩ := Walks.cons_iff.mp rest
  obtain ⟨i, kind⟩ := b
  obtain rfl : kind = .dir := dir
  cases labelled

theorem statFile_of_file {inode : U128} {record : InodeRecord}
    (resolved : resolvePath s path = .ok (some (inode, .file))) (held : s.loadInode inode = some record) :
    statFile s path =
      .ok (some (inode, record.content.value.size, record.content.value.mtime_unix_ms)) := by
  simp [statFile, resolved, held, bind, Except.bind, pure, Except.pure]

theorem Bears.showsNode (bears : Bears env last clock tree s) {p : U128} {e : DirEntry} {text : String}
    {depth : Nat} (walk : Walks (Edge s) rootNode parts (p, .dir)) (found : s.lookup p e.name = some e) :
    ShowsNode (walkEntryFor s text depth e) (tree (parts ++ [e.name])) := by
  have down : Walks (Edge s) rootNode (parts ++ [e.name]) (e.inode_id, e.entry_type) :=
    Walks.snoc_iff.mpr ⟨_, walk, rfl, e, found, rfl⟩
  cases kind : e.entry_type with
  | dir =>
      rw [kind] at down
      rw [bears.holds.eq_label down]
      unfold walkEntryFor
      rw [kind]
      exact ⟨rfl, rfl⟩
  | file =>
      rw [kind] at down
      obtain ⟨record, data, held, here, size⟩ := bears.file down
      rw [here]
      unfold walkEntryFor
      rw [kind, held]
      exact ⟨rfl, size⟩

theorem Bears.statFile_eq (bears : Bears env last clock tree s) (split : splitPath path = .ok parts)
    {data : Bytes} (here : tree parts = some (.file data)) :
    ∃ inode size mtime, statFile s path = .ok (some (inode, size, mtime)) ∧ size.val = data.length := by
  obtain ⟨⟨inode, kind⟩, walk, labelled⟩ := bears.holds.some_iff.mp here
  cases kind with
  | dir => cases labelled
  | file =>
      obtain ⟨record, data', held, here', length⟩ := bears.file walk
      cases here.symm.trans here'
      have resolved := resolvePath_eq_some.mpr ⟨parts, split, leads_iff_walks.mpr walk⟩
      exact ⟨inode, _, _, statFile_of_file resolved held, length⟩

theorem resolveParts_ok {parts walked : List String} {inode : U128} {kind : EntryType}
    (way : ∀ front y, front <+: parts → front ≠ parts → Walks (Edge s) (inode, kind) front y → y.2 = .dir) :
    ∃ found, resolveParts s walked parts inode kind = .ok found := by
  induction parts generalizing walked inode kind with
  | nil => exact ⟨_, rfl⟩
  | cons part rest ih =>
      obtain rfl : kind = .dir := way [] (inode, kind) List.nil_prefix (by simp) (.here _)
      unfold resolveParts
      rw [if_neg (not_not.mpr rfl)]
      cases found : s.lookup inode part with
      | none => exact ⟨_, rfl⟩
      | some e =>
          refine ih fun front y inside other walk => ?_
          refine way (part :: front) y (List.cons_prefix_cons.mpr ⟨rfl, inside⟩) (by simpa using other) ?_
          exact Walks.cons_iff.mpr ⟨_, ⟨rfl, e, found, rfl⟩, walk⟩

theorem Bears.statFile_none (bears : Bears env last clock tree s) (split : splitPath path = .ok parts)
    (way : ∀ front data, front <+: parts → tree front ≠ some (.file data)) :
    statFile s path = .ok none := by
  have dir : ∀ front y, front <+: parts → Walks (Edge s) rootNode front y → y.2 = .dir := by
    rintro front ⟨i, kind⟩ inside walk
    cases kind with
    | dir => rfl
    | file =>
        obtain ⟨record, data, -, here, -⟩ := bears.file walk
        exact absurd here (way front data inside)
  obtain ⟨found, resolved⟩ := @resolveParts_ok s parts [] rootInode .dir
    fun front y inside _ walk => dir front y inside walk
  have resolves : resolvePath s path = .ok found := by
    unfold resolvePath
    rw [split]
    exact resolved
  cases found with
  | none => simp [statFile, resolves, bind, Except.bind, pure, Except.pure]
  | some b =>
      obtain ⟨i, kind⟩ := b
      obtain ⟨other, same, leads⟩ := resolvePath_eq_some.mp resolves
      cases split.symm.trans same
      obtain rfl : kind = .dir := dir parts (i, kind) (List.prefix_refl _) (leads_iff_walks.mp leads)
      simp [statFile, resolves, bind, Except.bind, pure, Except.pure]

theorem Bears.stat_iff (bears : Bears env last clock tree s) (split : splitPath path = .ok parts) (size : U64) :
    (∃ inode mtime, statFile s path = .ok (some (inode, size, mtime))) ↔
      ∃ data, tree parts = some (.file data) ∧ size.val = data.length := by
  constructor
  · rintro ⟨inode, mtime, ran⟩
    unfold statFile at ran
    obtain ⟨found, resolved, ran⟩ := Effect.bind_eq_ok.mp ran
    cases found with
    | none => cases ran
    | some b =>
        obtain ⟨i, kind⟩ := b
        obtain ⟨other, same, leads⟩ := resolvePath_eq_some.mp resolved
        cases split.symm.trans same
        dsimp only at ran
        split at ran
        · cases ran
        · rename_i isFile
          obtain rfl : kind = .file := not_not.mp isFile
          obtain ⟨record, data, held, here, length⟩ := bears.file (leads_iff_walks.mp leads)
          rw [held] at ran
          cases ran
          exact ⟨data, here, length⟩
  · rintro ⟨data, here, length⟩
    obtain ⟨inode, size', mtime, found, length'⟩ := bears.statFile_eq split here
    obtain rfl : size' = size := Fin.ext (length'.trans length.symm)
    exact ⟨inode, mtime, found⟩

theorem Bears.lists (bears : Bears env last clock tree s) (named : Named tree)
    (split : splitPath path = .ok parts) {entries : List WalkEntry} (listed : walk s path = .ok entries) :
    tree parts = some .dir ∧ (entries.map WalkEntry.path).Nodup ∧
      (∀ x ∈ entries, ∃ front, x.path = joined (trimSlashes path) (front ++ [x.name]) ∧
        x.depth = front.length ∧ ShowsNode x (tree (parts ++ (front ++ [x.name])))) ∧
      ∀ front name, tree (parts ++ (front ++ [name])) ≠ none →
        ∃ x ∈ entries, x.path = joined (trimSlashes path) (front ++ [name]) := by
  have inodes := bears.solo.orderly.shape.walk_nodup listed
  unfold Core.walk at listed
  obtain ⟨found, resolved, listed⟩ := Effect.bind_eq_ok.mp listed
  cases found with
  | none => cases listed
  | some b =>
      obtain ⟨i, kind⟩ := b
      obtain ⟨other, same, leads⟩ := resolvePath_eq_some.mp resolved
      cases split.symm.trans same
      dsimp only at listed
      split at listed
      · cases listed
      · rename_i isDir
        obtain rfl : kind = .dir := not_not.mp isDir
        have above := leads_iff_walks.mp leads
        obtain ⟨extra, rfl, shown⟩ := walkInto_shows bears.solo.sole _ _ _ listed
        have plain : ∀ {front p e}, Walks (Edge s) (i, .dir) front (p, .dir) → s.lookup p e.name = some e →
            ∀ name ∈ front ++ [e.name], '/' ∉ name.toList := by
          intro front p e walk found name inside
          have there := @Bears.showsNode env last clock s tree _ bears p e "" 0 (above.trans walk) found
          refine (validName_iff.mp (named _ (fun missing => ?_) name
            (List.mem_append_right parts inside))).2.1
          rw [← List.append_assoc] at missing
          rw [missing] at there
          exact there
        refine ⟨(bears.holds.eq_label above).trans rfl, ?_, fun x member => ?_, fun front name there => ?_⟩
        · refine (List.nodup_map_iff_inj_on inodes.of_map).mpr ?_
          intro x inside y inside' same
          obtain ⟨front, p, e, walk, found, rfl⟩ := (shown x).mp inside
          obtain ⟨front', p', e', walk', found', rfl⟩ := (shown y).mp inside'
          have names := joined_injective (plain walk found) (plain walk' found') same
          obtain ⟨rfl, last⟩ := List.append_inj' names rfl
          obtain rfl : p = p' := congrArg Prod.fst (bears.serves.rooted.target walk walk')
          rw [List.singleton_inj.mp last] at found
          obtain rfl := Option.some.inj (found.symm.trans found')
          rfl
        · obtain ⟨front, p, e, walk, found, rfl⟩ := (shown x).mp member
          refine ⟨front, rfl, Nat.zero_add _, ?_⟩
          rw [← List.append_assoc]
          exact bears.showsNode (above.trans walk) found
        · obtain ⟨node, here⟩ := Option.ne_none_iff_exists'.mp there
          obtain ⟨y, walk, -⟩ := bears.holds.some_iff.mp here
          obtain ⟨b, first, below⟩ := Walks.append_iff.mp walk
          obtain rfl := bears.serves.rooted.target above first
          obtain ⟨⟨p, kind⟩, down, dir, e, found, -⟩ := Walks.snoc_iff.mp below
          obtain rfl : kind = .dir := dir
          obtain rfl : e.name = name := by
            rw [lookup_eq_findEntry] at found
            exact (mem_of_findEntry found).2
          exact ⟨_, (shown _).mpr ⟨front, p, e, down, found, rfl⟩, rfl⟩

/-- After any requests that returned: a file is measured if the tree has it, and then by its length; and
a listing shows what the tree has below a directory, each path once, with its kind and its length. -/
theorem solo_walks_tree (ideal : Ideal env)
    (decodes : ∀ object, env.decodeObject (env.encodeObject object) = some object)
    (inj : Set.InjOn (inodeForOp env) (idsUpTo device last)) (bound : last < 2 ^ 64)
    (run : SoloRun env identity device last clock tree s) (split : splitPath path = .ok parts) :
    (∀ size, (∃ inode mtime, statFile s path = .ok (some (inode, size, mtime))) ↔
      ∃ data, tree parts = some (.file data) ∧ size.val = data.length) ∧
    ∀ entries, walk s path = .ok entries → tree parts = some .dir ∧
      (entries.map WalkEntry.path).Nodup ∧
      (∀ x ∈ entries, ∃ front, x.path = joined (trimSlashes path) (front ++ [x.name]) ∧
        x.depth = front.length ∧ ShowsNode x (tree (parts ++ (front ++ [x.name])))) ∧
      ∀ front name, tree (parts ++ (front ++ [name])) ≠ none →
        ∃ x ∈ entries, x.path = joined (trimSlashes path) (front ++ [name]) := by
  obtain ⟨bears, -⟩ := run.bears ideal decodes inj bound
  exact ⟨bears.stat_iff split, fun _ listed => bears.lists run.named split listed⟩

def movedRows : List (String × Nat × Nat) :=
  ((walk movedNode "/").toOption.getD []).map fun x => (x.path, x.depth, x.size.val)

private theorem movedRows_eq : movedRows = [("/e", 0, 0), ("/e/f", 1, 1)] ∧
    (walk movedNode "/").toOption.isSome = true ∧ splitPath "/" = .ok [] := by
  decide +kernel

theorem solo_walks_tree_sample : movedRows = [("/e", 0, 0), ("/e/f", 1, 1)] ∧
    ∃ entries, walk movedNode "/" = .ok entries ∧ (entries.map WalkEntry.path).Nodup := by
  obtain ⟨rows, listed, split⟩ := movedRows_eq
  refine ⟨rows, ?_⟩
  cases run : walk movedNode "/" with
  | error e =>
      rw [run] at listed
      cases listed
  | ok entries =>
      exact ⟨entries, rfl, ((solo_walks_tree sealing_ideal Env.stored_decode sealing_injective (by decide)
        movedNode_run split).2 entries run).2.1⟩

end Shown

end NexusFS.Net
