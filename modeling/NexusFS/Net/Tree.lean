/- GID: NexusFS/Net/Tree
   source: crates/core/src/ops.rs, crates/core/src/namespace.rs
   digest: A node that only it writes to serves an ordinary file tree. -/

import NexusFS.Net.Edges

/-!
The tree is a function of paths and knows nothing of inodes, operations or blobs. Every call of the
local filesystem API that returns is the tree operation of its name.
-/

set_option autoImplicit false
set_option relaxedAutoImplicit false

namespace NexusFS.Net

open NexusFS.Lib NexusFS.Lib.Effect NexusFS.Proto NexusFS.Core NexusFS.Crdt CoreState

section Calls

variable {env : Env} {identity : Identity} {last k l : Nat} {clock now : U64} {s t u : CoreState}
  {op : FsOp} {change : FsOpKind} {tree : FileTree String Bytes}
  {label : U128 × EntryType → Option (Node Bytes)} {path : String} {parts front : List String}

def Hollow (reg : LwwReg ContentState) : Prop := reg.value.node_hash = none ∧ reg.value.size = 0

/-- What a call leaves of the state before it, and that it took no more than `k` ids. -/
structure Spends (k : Nat) (s t : CoreState) : Prop where
  files : Files s t
  back : ∀ {i reg}, FileAt i reg t → FileAt i reg s ∨ Hollow reg
  device : t.device_id = s.device_id
  counter : t.next_counter.val ≤ s.next_counter.val + k
  lasts : Lasts s t

theorem Spends.refl (s : CoreState) : Spends 0 s s :=
  ⟨fun here => here, .inl, rfl, le_rfl, fun _ here => here, rfl, rfl, rfl⟩

theorem Spends.trans (first : Spends k s t) (second : Spends l t u) : Spends (k + l) s u where
  files here := second.files (first.files here)
  back here := (second.back here).elim first.back .inr
  device := second.device.trans first.device
  counter := by
    have one := first.counter
    have two := second.counter
    omega
  lasts := ⟨fun hash here => second.lasts.1 hash (first.lasts.1 hash here),
    first.lasts.2.trans second.lasts.2⟩

theorem Spends.mono (spends : Spends k s t) (more : k ≤ l) : Spends l s t :=
  { spends with counter := spends.counter.trans (Nat.add_le_add_left more _) }

theorem spends_applyLocal (solo : Solo env last clock s) (room : s.next_counter.val + 1 ≤ last)
    (bound : last < 2 ^ 64) (run : applyLocal env identity change now s = .ok op t) (files : Files s t)
    (other : ∀ inode offset chunks size encryption,
      change ≠ .write inode offset chunks size encryption) : Spends 1 s t := by
  have numbers := numbers_applyLocal env identity change now s
  have lasts := lasts_applyLocal env identity change now s
  rw [run] at numbers lasts
  refine ⟨files, fun file => ?_, numbers.1, ?_, lasts⟩
  · rcases solo.fileAt room bound run file with ⟨old, -⟩ | fresh | ⟨_, _, _, _, shape, -⟩
    · exact .inl old
    · exact .inr fresh
    · exact absurd shape (other _ _ _ _ _)
  have counter : t.next_counter = s.next_counter + 1 := numbers.2
  rw [counter, Solo.next_counter_val room bound]

/-- The paths of the node are those of the tree, and lead to what `label` says. -/
structure Serves (env : Env) (last : Nat) (clock : U64) (label : U128 × EntryType → Option (Node Bytes))
    (tree : FileTree String Bytes) (s : CoreState) : Prop where
  solo : Solo env last clock s
  denotes : FileTree.Denotes (Edge s) rootNode label tree

namespace Serves

theorem later (serves : Serves env last clock label tree s) (after : clock ≤ now) :
    Serves env last now label tree s :=
  ⟨serves.solo.later after, serves.denotes⟩

theorem rooted (serves : Serves env last clock label tree s) : Rooted (Edge s) rootNode :=
  serves.solo.orderly.shape.rooted

theorem free_iff (serves : Serves env last clock label tree s) {p : U128} {n : String}
    (above : Walks (Edge s) rootNode front (p, .dir)) :
    tree (front ++ [n]) = none ↔ s.lookup p n = none := by
  rw [serves.denotes.none_iff]
  constructor
  · intro nowhere
    by_contra there
    obtain ⟨e, found⟩ := Option.ne_none_iff_exists'.mp there
    exact nowhere _ (Walks.snoc_iff.mpr ⟨_, above, rfl, e, found, rfl⟩)
  · intro missing y walk
    obtain ⟨b, before, -, e, found, -⟩ := Walks.snoc_iff.mp walk
    rw [serves.rooted.target before above, missing] at found
    cases found

end Serves

/-- The loop of `mkdir_p` makes the directories that are missing. -/
theorem mkdirParts_tree (dirs : ∀ i, label (i, .dir) = some .dir) {walked : String} {start final : U128}
    (serves : Serves env last clock label tree s)
    (inj : Set.InjOn (inodeForOp env) (idsUpTo s.device_id last))
    (room : s.next_counter.val + parts.length ≤ last) (bound : last < 2 ^ 64) (after : clock ≤ now)
    (above : Walks (Edge s) rootNode front (start, .dir))
    (run : mkdirParts env identity now parts walked start s = .ok final t) :
    Serves env last now label (tree.mkdirs (front ++ parts)) t ∧ Spends parts.length s t ∧
      Walks (Edge t) rootNode (front ++ parts) (final, .dir) := by
  induction parts generalizing walked start s front clock tree with
  | nil =>
      cases run
      rw [List.append_nil, FileTree.mkdirs_eq_self]
      · exact ⟨serves.later after, .refl _, above⟩
      · rintro path ⟨back, rfl⟩
        obtain ⟨b, first, -⟩ := Walks.append_iff.mp above
        exact fun missing => serves.denotes.none_iff.mp missing b first
  | cons part rest ih =>
      rw [List.length_cons] at room
      have joined : front ++ part :: rest = front ++ [part] ++ rest := by simp
      unfold mkdirParts at run
      obtain ⟨_, _, read, run⟩ := bind_run_eq_ok.mp run
      cases read
      cases found : s.lookup start part with
      | some e =>
          rw [found] at run
          dsimp only at run
          split at run
          · rename_i dir
            have next : Walks (Edge s) rootNode (front ++ [part]) (e.inode_id, .dir) :=
              Walks.snoc_iff.mpr ⟨_, above, rfl, e, found, by rw [dir]⟩
            obtain ⟨serves', spends, walk⟩ := ih serves inj (by omega) after next run
            rw [joined]
            exact ⟨serves', spends.mono (Nat.le_succ _), walk⟩
          · cases run
      | none =>
          rw [found] at run
          obtain ⟨op, u, first, run⟩ := bind_run_eq_ok.mp run
          obtain ⟨id, solo, grafted, -⟩ := @Solo.creates env identity last clock now .dir s u op start part
            0o40755 serves.solo inj (by omega) bound after found first
          have spends := spends_applyLocal serves.solo (by omega) bound first grafted.files (by rintro _ _ _ _ _ ⟨⟩)
          have free := (serves.free_iff above).mpr found
          have denotes := serves.denotes.graft serves.rooted above free grafted.loose grafted.childless
            grafted.other grafted.edges (dirs _)
          have above' : Walks (Edge u) rootNode (front ++ [part]) (inodeForOp env op.id, .dir) := by
            rw [id]
            exact Walks.snoc_iff.mpr ⟨_, above.mono fun a l b edge => (grafted.edges a l b).mpr (.inl edge),
              (grafted.edges _ _ _).mpr (.inr ⟨rfl, rfl, rfl⟩)⟩
          have counter := spends.counter
          obtain ⟨serves', spends', walk⟩ := ih ⟨solo, denotes⟩ (spends.device ▸ inj) (by omega) le_rfl
            above' run
          rw [joined, ← FileTree.mkdirs_make (List.prefix_append _ _) free]
          exact ⟨serves', (spends.trans spends').mono (by simp; omega), walk⟩

def withFile (label : U128 × EntryType → Option (Node Bytes)) (inode : U128) (data : Bytes)
    (y : U128 × EntryType) : Option (Node Bytes) :=
  if y = (inode, .file) then some (.file data) else label y

/-- The first half of `write_file` makes the directories and the file, ahead of its content. -/
theorem prepareFile_tree (dirs : ∀ i, label (i, .dir) = some .dir) {inode : U128} {data : Bytes}
    (serves : Serves env last clock label tree s)
    (inj : Set.InjOn (inodeForOp env) (idsUpTo s.device_id last))
    (room : s.next_counter.val + parts.length ≤ last) (bound : last < 2 ^ 64) (after : clock ≤ now)
    (split : splitPath path = .ok parts) (run : prepareFile env identity path now s = .ok inode t) :
    Serves env last now (withFile label inode data) (tree.put parts data) t ∧
      Spends parts.length s t := by
  unfold prepareFile at run
  obtain ⟨parts, _, components, run⟩ := bind_run_eq_ok.mp run
  rw [split] at components
  cases components
  rcases List.eq_nil_or_concat' parts with rfl | ⟨front, name, rfl⟩
  · cases run
  rw [List.getLast?_concat, List.dropLast_concat] at run
  rw [List.length_append, List.length_singleton] at room
  obtain ⟨parent, u, first, run⟩ := bind_run_eq_ok.mp run
  have valid := valid_of_splitPath split
  have joined := splitPath_intercalate front fun part inside => valid part (by simp [inside])
  have opens : mkdirP env identity ("/".intercalate front) now s =
      mkdirParts env identity now front "" rootInode s := by
    unfold mkdirP
    rw [joined]
    rfl
  rw [opens] at first
  obtain ⟨serves', spends, above⟩ := mkdirParts_tree dirs serves inj (by omega) bound after (.here _) first
  rw [List.nil_append] at serves' above
  have put : tree.put (front ++ [name]) data =
      (tree.mkdirs front).make (front ++ [name]) (.file data) := by
    unfold FileTree.put
    rw [List.dropLast_concat]
  have named : withFile label inode data (inode, .file) = some (.file data) := if_pos rfl
  rw [put, List.length_append, List.length_singleton]
  obtain ⟨_, _, read, run⟩ := bind_run_eq_ok.mp run
  cases read
  cases found : u.lookup parent name with
  | some e =>
      rw [found] at run
      dsimp only at run
      split at run
      · rename_i isFile
        cases run
        have walk : Walks (Edge t) rootNode (front ++ [name]) (e.inode_id, .file) :=
          Walks.snoc_iff.mpr ⟨_, above, rfl, e, found, by rw [isFile]⟩
        exact ⟨⟨serves'.solo, serves'.denotes.relabel serves'.rooted walk named fun y other => if_neg other⟩,
          spends.mono (Nat.le_succ _)⟩
      · cases run
  | none =>
      rw [found] at run
      obtain ⟨op, v, second, run⟩ := bind_run_eq_ok.mp run
      cases run
      have counter := spends.counter
      obtain ⟨id, solo, grafted, -⟩ := @Solo.creates env identity last now now .file u t op parent name
        0o100644 serves'.solo (spends.device ▸ inj) (by omega) bound le_rfl found second
      rw [id] at named ⊢
      have unreached : ∀ {path y}, Walks (Edge u) rootNode path y → y ≠ (inodeForOp env (nextId u), .file) := by
        rintro path y walk rfl
        rcases List.eq_nil_or_concat' path with rfl | ⟨before, l, rfl⟩
        · exact grafted.other (Walks.nil_iff.mp walk)
        · obtain ⟨b, -, edge⟩ := Walks.snoc_iff.mp walk
          exact grafted.loose b l edge
      have denotes := serves'.denotes.congr fun path y walk =>
        (if_neg (unreached walk) : withFile label (inodeForOp env (nextId u)) data y = label y)
      exact ⟨⟨solo, denotes.graft serves'.rooted above ((serves'.free_iff above).mpr found) grafted.loose
          grafted.childless grafted.other grafted.edges named⟩,
        spends.trans (spends_applyLocal serves'.solo (by omega) bound second grafted.files
          (by rintro _ _ _ _ _ ⟨⟩))⟩

/-- What was a file, and has neither gone nor changed since, is still what it was. -/
theorem treeNode_later {kept : U128 → Prop} (grew : Extends s t) (settings : SameSettings s t)
    (files : ∀ {i reg}, kept i → FileAt i reg s → FileAt i reg t) {y : U128 × EntryType}
    {node : Node Bytes} (same : y.2 = .file → kept y.1) (here : treeNode env s y = some node) :
    treeNode env t y = some node := by
  obtain ⟨i, kind⟩ := y
  cases kind with
  | dir => exact here
  | file =>
      obtain ⟨data, read⟩ : ∃ data, readFile env s i = .ok data := by
        unfold treeNode at here
        dsimp only at here
        split at here
        · rename_i data read
          exact ⟨data, read⟩
        · cases here
      obtain rfl := Option.some.inj ((treeNode_file.mpr read).symm.trans here)
      have present : ∃ reg, FileAt i reg s := by
        unfold readFile at read
        split at read
        · cases read
        · rename_i record found
          split at read
          · cases read
          · rename_i isFile
            exact ⟨record.content, record, found, not_not.mp isFile, rfl⟩
      obtain ⟨reg, file⟩ := present
      exact treeNode_file.mpr (readFile_later file (files (same rfl) file) grew settings read)

end Calls

/-- A request that changes the tree, as the local filesystem API takes it. -/
inductive Request where
  | mkdir (path : String)
  | write (path : String) (data : Bytes)
  | remove (path : String)
  | rename (source target : String)

namespace Request

def perform (env : Env) (identity : Identity) (now : U64) : Request → M Unit
  | .mkdir path => do let _ ← mkdirP env identity path now
  | .write path data => do let _ ← writeFile env identity path data now
  | .remove path => removePath env identity path now
  | .rename source target => renamePath env identity source target now

def components (path : String) : List String := (splitPath path).toOption.getD []

def act : Request → FileTree String Bytes → FileTree String Bytes
  | .mkdir path, tree => tree.mkdirs (components path)
  | .write path data, tree => tree.put (components path) data
  | .remove path, tree => tree.remove (components path)
  | .rename source target, tree => tree.move (components source) (components target)

def cost : Request → Nat
  | .mkdir path => (components path).length
  | .write path _ => (components path).length + 1
  | .remove _ | .rename _ _ => 1

theorem keeps_perform {env : Env} {identity : Identity} {p : CoreState → Prop}
    (authored : ∀ kind now, Keeps p (applyLocal env identity kind now))
    (stored : ∀ data, Keeps p (storeContent env data)) (now : U64) (r : Request) :
    Keeps p (r.perform env identity now) := by
  cases r with
  | mkdir path => exact (keeps_mkdirP authored path now).bind fun _ => Keeps.pure _
  | write path data => exact (keeps_writeFile authored stored path data now).bind fun _ => Keeps.pure _
  | remove path => exact keeps_removePath authored path now
  | rename source target => exact keeps_renamePath authored source target now

theorem components_eq {path : String} {parts : List String} (split : splitPath path = .ok parts) :
    components path = parts := by
  unfold components
  rw [split]
  rfl

end Request

section Requests

variable {env : Env} {identity : Identity} {last : Nat} {clock now : U64} {s t : CoreState}
  {tree : FileTree String Bytes} {r : Request}

/-- A request that returned. A rename has a free target, the ids do not run out, and no two byte strings
that are held or written share a hash. -/
structure Granted (env : Env) (identity : Identity) (last : Nat) (now : U64) (r : Request)
    (tree : FileTree String Bytes) (s t : CoreState) : Prop where
  returned : r.perform env identity now s = .ok () t
  room : s.next_counter.val + r.cost ≤ last
  free : ∀ source target, r = .rename source target → tree (Request.components target) = none
  apart : Apart env s t []
  written : ∀ path data, r = .write path data → data.length < 2 ^ 64 ∧
    ∀ inode a b op, Wrote env identity path data now s inode a b op t →
      Set.InjOn env.blake3 (writtenBytes env data now a t)

def Measured (env : Env) (s : CoreState) : Prop := ∀ {i reg}, FileAt i reg s → ReadsInFull env s i

theorem readsInFull_of_hollow {i : U128} {reg : LwwReg ContentState} (file : FileAt i reg s)
    (hollow : Hollow reg) : ReadsInFull env s i := by
  obtain ⟨record, found, isFile, rfl⟩ := file
  refine ⟨[], record, ?_, found, by rw [hollow.2]; rfl⟩
  unfold readFile
  rw [found]
  dsimp only
  rw [if_neg (not_not.mpr isFile), hollow.1]
  rfl

theorem readsInFull_later {i : U128} {reg : LwwReg ContentState} (before : FileAt i reg s)
    (file : FileAt i reg t) (grew : Extends s t) (settings : SameSettings s t)
    (whole : ReadsInFull env s i) : ReadsInFull env t i := by
  obtain ⟨bytes, record, read, found, size⟩ := whole
  have read' := readFile_later before file grew settings read
  obtain ⟨old, found_s, -, rfl⟩ := before
  obtain rfl := Option.some.inj (found.symm.trans found_s)
  obtain ⟨new, found_t, isFile, same⟩ := file
  exact ⟨bytes, new, read', found_t, by rw [size, same]⟩

/-- A node that only it writes to holds the tree. -/
structure Bears (env : Env) (last : Nat) (clock : U64) (tree : FileTree String Bytes) (s : CoreState) :
    Prop where
  solo : Solo env last clock s
  holds : HoldsTree env s tree
  measured : Measured env s
  size : s.chunk_size ≤ 2 ^ 32 - 1 - 16

namespace Bears

theorem serves (bears : Bears env last clock tree s) :
    Serves env last clock (treeNode env s) tree s := ⟨bears.solo, bears.holds⟩

theorem of_serves {label : U128 × EntryType → Option (Node Bytes)} {after : FileTree String Bytes}
    (bears : Bears env last clock tree s) (granted : Granted env identity last now r tree s t)
    (serves : Serves env last now label after t) (lasts : Lasts s t)
    (same : Extends s t → ∀ y node, label y = some node → treeNode env t y = some node)
    (measured : Extends s t → Measured env t) : Bears env last now after t := by
  have grew : Extends s t := extends_of_keeps granted.apart bears.solo.keyed.within_left
    serves.solo.keyed.within_right lasts.1
  refine ⟨serves.solo, serves.denotes.congr fun path y walk => ?_, ?_, ?_⟩
  · obtain ⟨node, labelled⟩ := serves.denotes.total walk
    rw [labelled]
    exact same grew y node labelled
  · exact measured grew
  · rw [lasts.2.chunk_size]
    exact bears.size

theorem of_spends {k : Nat} {after : FileTree String Bytes} (bears : Bears env last clock tree s)
    (granted : Granted env identity last now r tree s t)
    (serves : Serves env last now (treeNode env s) after t) (spends : Spends k s t) :
    Bears env last now after t :=
  bears.of_serves granted serves spends.lasts (fun grew y _ here =>
    @treeNode_later env s t (fun _ => True) grew spends.lasts.2 (fun _ file => spends.files file) y _
      (fun _ => trivial) here) fun grew _ _ file => (spends.back file).elim
        (fun old => readsInFull_later old file grew spends.lasts.2 (bears.measured old))
        (readsInFull_of_hollow file)

variable (bears : Bears env last clock tree s)
  (inj : Set.InjOn (inodeForOp env) (idsUpTo s.device_id last)) (bound : last < 2 ^ 64)
  (after : clock ≤ now)

include bears inj bound after

theorem mkdir {path : String} (granted : Granted env identity last now (.mkdir path) tree s t) :
    Bears env last now ((Request.mkdir path).act tree) t ∧ t.device_id = s.device_id := by
  obtain ⟨final, u, run, rest⟩ := bind_run_eq_ok.mp granted.returned
  cases rest
  unfold mkdirP at run
  obtain ⟨parts, _, components, run⟩ := bind_run_eq_ok.mp run
  cases split : splitPath path with
  | error e =>
      rw [split] at components
      cases components
  | ok parts' =>
      rw [split] at components
      cases components
      have room := granted.room
      unfold Request.act
      unfold Request.cost at room
      dsimp only at room ⊢
      rw [Request.components_eq split] at room ⊢
      obtain ⟨serves, spends, -⟩ := mkdirParts_tree (fun _ => rfl) bears.serves inj room bound after
        (.here _) run
      exact ⟨bears.of_spends granted serves spends, spends.device⟩

theorem remove {path : String} (granted : Granted env identity last now (.remove path) tree s t) :
    Bears env last now ((Request.remove path).act tree) t ∧ t.device_id = s.device_id := by
  obtain ⟨p, n, e, op, parent, found, run⟩ := removePath_ok granted.returned
  obtain ⟨front, split, leads⟩ := resolveParent_eq_some.mp parent
  obtain ⟨solo, edges, files⟩ := bears.solo.unlinks inj granted.room bound after run
  have spends := spends_applyLocal bears.solo granted.room bound run files (by rintro _ _ _ _ _ ⟨⟩)
  have denotes := bears.holds.cut bears.serves.rooted (leads_iff_walks.mp leads) edges
  rw [← Request.components_eq split] at denotes
  exact ⟨bears.of_spends granted ⟨solo, denotes⟩ spends, spends.device⟩

theorem rename {source target : String}
    (granted : Granted env identity last now (.rename source target) tree s t) :
    Bears env last now ((Request.rename source target).act tree) t ∧ t.device_id = s.device_id := by
  obtain ⟨p, n, q, m, e, op, parent, found, parent', run⟩ := renamePath_ok granted.returned
  obtain ⟨front, split, leads⟩ := resolveParent_eq_some.mp parent
  obtain ⟨front', split', leads'⟩ := resolveParent_eq_some.mp parent'
  have above := leads_iff_walks.mp leads
  have above' := leads_iff_walks.mp leads'
  have edge : Edge s (p, .dir) n (e.inode_id, e.entry_type) := ⟨rfl, e, found, rfl⟩
  have free : tree (front' ++ [m]) = none := by
    rw [← Request.components_eq split']
    exact granted.free _ _ rfl
  obtain ⟨solo, edges, away, files⟩ := bears.solo.renames inj granted.room bound after edge
    ((bears.serves.free_iff above').mp free) run
  have spends := spends_applyLocal bears.solo granted.room bound run files (by rintro _ _ _ _ _ ⟨⟩)
  have denotes := bears.holds.move bears.serves.rooted above edge above' away free edges
  rw [← Request.components_eq split, ← Request.components_eq split'] at denotes
  exact ⟨bears.of_spends granted ⟨solo, denotes⟩ spends, spends.device⟩

theorem write (ideal : Ideal env)
    (decodes : ∀ object, env.decodeObject (env.encodeObject object) = some object) {path : String}
    {data : Bytes} (granted : Granted env identity last now (.write path data) tree s t) :
    Bears env last now ((Request.write path data).act tree) t ∧ t.device_id = s.device_id := by
  obtain ⟨inode, u, returned, rest⟩ := bind_run_eq_ok.mp granted.returned
  cases rest
  obtain ⟨a, b, op, wrote⟩ := (writeFile_ok_iff ideal).mp returned
  obtain ⟨length, apart⟩ := granted.written path data rfl
  have room := granted.room
  obtain rfl : withContent env data a = b := congrArg finalState wrote.stored
  cases split : splitPath path with
  | error e =>
      have prepared := wrote.prepared
      unfold prepareFile at prepared
      rw [split] at prepared
      cases prepared
  | ok parts =>
      unfold Request.act
      unfold Request.cost at room
      dsimp only at room ⊢
      rw [Request.components_eq split] at room ⊢
      obtain ⟨serves, spends⟩ : Serves env last now (withFile (treeNode env s) inode data)
          (tree.put parts data) a ∧ Spends parts.length s a :=
        prepareFile_tree (fun _ => rfl) bears.serves inj (by omega) bound after split wrote.prepared
      have counter := spends.counter
      have authored : ∀ kind now, Keeps (Keyed env) (applyLocal env identity kind now) :=
        keeps_applyLocal env identity
      have keyed : Keyed env t := by
        have kept := keeps_writeFile authored (keeps_storeContent env) path data now s bears.solo.keyed
        rwa [returned] at kept
      have stocked := stocked ideal serves.solo.keyed (apart _ _ _ _ wrote)
      have size : a.chunk_size ≤ 2 ^ 32 - 1 - 16 := spends.lasts.2.chunk_size ▸ bears.size
      obtain ⟨solo, edges, read, files, back⟩ := serves.solo.writes (spends.device ▸ inj) (by omega) bound le_rfl ideal
        decodes size length stocked keyed wrote.performed
      have lasts : Lasts s t := by
        have last_lasts := lasts_applyLocal env identity (writeKind env a inode data) now (withContent env data a)
        rw [wrote.performed] at last_lasts
        obtain ⟨blobs, draws, keeps, same⟩ := stocked.only
        rw [same] at last_lasts
        exact ⟨fun hash here => last_lasts.1 hash (keeps hash (spends.lasts.1 hash here)),
          spends.lasts.2.trans ⟨last_lasts.2.cipher, last_lasts.2.sealing_secret, last_lasts.2.chunk_size⟩⟩
      have device : t.device_id = s.device_id := by
        have numbers := numbers_applyLocal env identity (writeKind env a inode data) now (withContent env data a)
        rw [wrote.performed] at numbers
        obtain ⟨blobs, draws, -, same⟩ := stocked.only
        rw [same] at numbers
        exact numbers.1.trans spends.device
      refine ⟨bears.of_serves granted ⟨solo, edges ▸ serves.denotes⟩ lasts (fun grew y node here => ?_)
        fun grew i reg file => ?_, device⟩
      · unfold withFile at here
        split at here
        · rename_i same
          subst same
          exact (treeNode_file.mpr read).trans here
        · rename_i other
          refine @treeNode_later env s t (fun i => i ≠ inode) grew lasts.2
            (fun apart file => files apart (spends.files file)) y node (fun isFile same => ?_) here
          exact other (Prod.ext same isFile)
      · rcases back file with ⟨other, old⟩ | hollow | ⟨rfl, size⟩
        · rcases spends.back old with older | hollow
          · exact readsInFull_later older file grew lasts.2 (bears.measured older)
          · exact readsInFull_of_hollow file hollow
        · exact readsInFull_of_hollow file hollow
        · obtain ⟨record, found, -, rfl⟩ := file
          exact ⟨data, record, read, found, size.symm⟩

theorem step (ideal : Ideal env)
    (decodes : ∀ object, env.decodeObject (env.encodeObject object) = some object)
    (granted : Granted env identity last now r tree s t) :
    Bears env last now (r.act tree) t ∧ t.device_id = s.device_id := by
  cases r with
  | mkdir path => exact bears.mkdir inj bound after granted
  | write path data => exact bears.write inj bound after ideal decodes granted
  | remove path => exact bears.remove inj bound after granted
  | rename source target => exact bears.rename inj bound after granted

end Bears

theorem bears_booted (blank : Blank s) (empty : s.blobs = ∅) (size : s.chunk_size ≤ 2 ^ 32 - 1 - 16) :
    Bears env last 0 FileTree.bare (booted env s) := by
  obtain ⟨_, _, _, _, _, _, _, -, same⟩ := (booted_spec env blank).records
  have orderly : Orderly env (idsUpTo (booted env s).device_id last) (booted env s) :=
    orderly_booted env _ blank
  have dirs : (booted env s).dirs = (genesis s).dirs := by rw [same]
  have inodes : ∀ i, (booted env s).loadInode i = (genesis s).loadInode i := by
    rw [same]
    exact fun _ => rfl
  have unlisted : ∀ p n d v, ¬(booted env s).Live p n d v := by
    intro p n d v live
    have here := ((live_of_dirs dirs p n d v).mp live).1
    rw [added_genesis blank] at here
    cases here
  have sole : Sole (booted env s) := fun live _ => absurd live (unlisted _ _ _ _)
  have edgeless : ∀ a l b, ¬Edge (booted env s) a l b := by
    intro a l b edge
    obtain ⟨-, d, v, live, -⟩ := sole.edge_iff.mp edge
    exact unlisted _ _ _ _ live
  have keyed : Keyed env (booted env s) := by
    refine keeps_bootstrapIfNeeded env _ ?_
    intro hash bytes here
    rw [empty, Std.ExtTreeMap.getElem?_empty] at here
    cases here
  have walks : ∀ {path y}, Walks (Edge (booted env s)) rootNode path y ↔ path = [] ∧ y = rootNode := by
    intro path y
    cases path with
    | nil => exact ⟨fun walk => ⟨rfl, Walks.nil_iff.mp walk⟩, fun both => Walks.nil_iff.mpr both.2⟩
    | cons part rest =>
        constructor
        · intro walk
          obtain ⟨b, edge, -⟩ := Walks.cons_iff.mp walk
          exact absurd edge (edgeless _ _ _)
        · rintro ⟨nothing, -⟩
          cases nothing
  refine ⟨⟨orderly, keyed, fun id => ?_, sole, fun {id} here => ?_, fun {p n d} gone => ?_,
    fun {i reg} here => ?_⟩, ⟨fun {path node} => ?_, fun {path y} walk => ?_⟩, fun {i reg} file => ?_, ?_⟩
  · have none_parked : (booted env s).pending = ∅ := by rw [same]; exact blank.pending
    rw [none_parked]
    exact Std.ExtTreeMap.getElem?_empty
  · have none_applied : (booted env s).applied = ∅ := by rw [same]; exact blank.applied
    rw [none_applied] at here
    exact absurd here Std.ExtTreeSet.not_mem_empty
  · rw [removed_congr dirs] at gone
    unfold Removed at gone
    rw [dirAt_genesis blank] at gone
    exact absurd gone Std.ExtTreeSet.not_mem_empty
  · unfold contentAt at here
    rw [inodes, loadInode_genesis blank] at here
    split at here
    · obtain rfl := Option.some.inj here
      show orderKeyOf 0 0 0 ≤ orderKeyOf 0 (booted env s).device_id (booted env s).next_counter
      rcases (Fin.zero_le (booted env s).device_id).lt_or_eq with before | zero
      · exact Prod.Lex.toLex_le_toLex.mpr (.inr ⟨rfl, Prod.Lex.toLex_le_toLex.mpr (.inl before)⟩)
      · rw [← zero]
        exact orderKeyOf_mono le_rfl (Fin.zero_le _)
    · cases here
  · unfold FileTree.bare
    simp only [walks]
    constructor
    · intro here
      split at here
      · rename_i root
        obtain rfl := Option.some.inj here
        exact ⟨rootNode, ⟨root, rfl⟩, rfl⟩
      · cases here
    · rintro ⟨y, ⟨rfl, rfl⟩, labelled⟩
      rw [if_pos rfl, ← labelled]
      rfl
  · obtain ⟨-, rfl⟩ := walks.mp walk
    exact ⟨.dir, rfl⟩
  · obtain ⟨record, found, isFile, -⟩ := file
    rw [inodes, loadInode_genesis blank] at found
    split at found
    · obtain rfl := Option.some.inj found
      cases isFile
    · cases found
  · have kept : (booted env s).chunk_size = s.chunk_size := by rw [same]; rfl
    rw [kept]
    exact size

/-- The states of a node that only it writes to, with the tree that its requests have made: the clock
does not go back, and every request returned. -/
inductive SoloRun (env : Env) (identity : Identity) (device : DeviceId) (last : Nat) :
    U64 → FileTree String Bytes → CoreState → Prop
  | boot {s : CoreState} (blank : Blank s) (empty : s.blobs = ∅)
      (size : s.chunk_size ≤ 2 ^ 32 - 1 - 16) (own : s.device_id = device) :
      SoloRun env identity device last 0 .bare (booted env s)
  | step {clock now : U64} {tree : FileTree String Bytes} {s t : CoreState} {r : Request}
      (before : SoloRun env identity device last clock tree s) (after : clock ≤ now)
      (granted : Granted env identity last now r tree s t) :
      SoloRun env identity device last now (r.act tree) t

variable {device : DeviceId}

theorem SoloRun.bears (run : SoloRun env identity device last clock tree s) (ideal : Ideal env)
    (decodes : ∀ object, env.decodeObject (env.encodeObject object) = some object)
    (inj : Set.InjOn (inodeForOp env) (idsUpTo device last)) (bound : last < 2 ^ 64) :
    Bears env last clock tree s ∧ s.device_id = device := by
  induction run with
  | @boot s blank empty size own =>
      obtain ⟨_, _, _, _, _, _, _, -, same⟩ := (booted_spec env blank).records
      refine ⟨bears_booted blank empty size, ?_⟩
      rw [same]
      exact own
  | step _ after granted ih =>
      obtain ⟨bears, own⟩ := ih
      obtain ⟨stepped, kept⟩ := bears.step (own ▸ inj) bound after ideal decodes granted
      exact ⟨stepped, kept.trans own⟩

/-- After any requests that returned, reading and listing paths is reading and listing the tree that the
requests make of the empty one. -/
theorem solo_serves_tree (ideal : Ideal env)
    (decodes : ∀ object, env.decodeObject (env.encodeObject object) = some object)
    (inj : Set.InjOn (inodeForOp env) (idsUpTo device last)) (bound : last < 2 ^ 64)
    (run : SoloRun env identity device last clock tree s) {path : String} {parts : List String}
    (split : splitPath path = .ok parts) :
    ((∃ b, resolvePath s path = .ok (some b)) ↔ tree parts ≠ none) ∧
      (∀ data, readFilePath env s path = .ok data ↔ tree parts = some (.file data)) ∧
      ((∃ entries, readDirPath s path = .ok entries) ↔ tree parts = some .dir) ∧
      ∀ entries, readDirPath s path = .ok entries →
        ∀ name, (∃ e ∈ entries, e.name = name) ↔ tree (parts ++ [name]) ≠ none := by
  obtain ⟨bears, -⟩ := run.bears ideal decodes inj bound
  have listed := bears.holds.list_iff split
  exact ⟨bears.holds.resolve_iff split, fun data => bears.holds.read_iff split, listed.1.symm, listed.2⟩

def emptyNode : CoreState := booted .sealing (CoreState.new 7)

def filedNode : CoreState :=
  finalState ((Request.write "/d/f" [9]).perform .sealing sampleIdentity 10 emptyNode)

def movedNode : CoreState :=
  finalState ((Request.rename "/d" "/e").perform .sealing sampleIdentity 11 filedNode)

def movedTree : FileTree String Bytes :=
  (Request.rename "/d" "/e").act ((Request.write "/d/f" [9]).act .bare)

def Includes (s t : CoreState) : Prop := ∀ row ∈ s.blobs.toList, t.blobs[row.1]? = some row.2

instance (s t : CoreState) : Decidable (Includes s t) :=
  inferInstanceAs (Decidable (∀ row ∈ s.blobs.toList, t.blobs[row.1]? = some row.2))

theorem Includes.extends {s t : CoreState} (all : Includes s t) : Extends s t :=
  fun hash bytes here => all (hash, bytes) ((BTreeMap.mem_toList _ _ _).mpr here)

/-- Whatever a write has and makes on its way is held by the node that it leaves. -/
structure Retains (path : String) (data : Bytes) (now : U64) (s t : CoreState) : Prop where
  prepared : Includes (finalState (prepareFile .sealing sampleIdentity path now s)) t
  listed : ∀ bytes ∈ encodeObject .sealing
      (contentObject .sealing (finalState (prepareFile .sealing sampleIdentity path now s)) data now
        (contentInfo .sealing (finalState (prepareFile .sealing sampleIdentity path now s)) data)) ::
          contentPieces .sealing (finalState (prepareFile .sealing sampleIdentity path now s)) data,
    t.blobs[Env.sealing.blake3 bytes]? = some bytes

instance (path : String) (data : Bytes) (now : U64) (s t : CoreState) :
    Decidable (Retains path data now s t) :=
  decidable_of_iff (Includes (finalState (prepareFile .sealing sampleIdentity path now s)) t ∧
    ∀ bytes ∈ encodeObject .sealing
      (contentObject .sealing (finalState (prepareFile .sealing sampleIdentity path now s)) data now
        (contentInfo .sealing (finalState (prepareFile .sealing sampleIdentity path now s)) data)) ::
          contentPieces .sealing (finalState (prepareFile .sealing sampleIdentity path now s)) data,
      t.blobs[Env.sealing.blake3 bytes]? = some bytes)
    ⟨fun all => ⟨all.1, all.2⟩, fun all => ⟨all.1, all.2⟩⟩

theorem Retains.written {path : String} {data : Bytes} {now : U64} {s t : CoreState}
    (retains : Retains path data now s t) (keyed : Keyed .sealing s) (keyed_t : Keyed .sealing t)
    {inode : U128} {a b : CoreState} {op : FsOp}
    (wrote : Wrote .sealing sampleIdentity path data now s inode a b op t) :
    Set.InjOn Env.sealing.blake3 (writtenBytes .sealing data now a t) := by
  obtain rfl : finalState (prepareFile .sealing sampleIdentity path now s) = a :=
    congrArg finalState wrote.prepared
  exact apart_of_extends (keeps_prepareFile (keeps_applyLocal .sealing sampleIdentity) path now _ keyed)
    keyed_t retains.prepared.extends retains.listed

theorem Request.keyed {now : U64} {s t : CoreState} (r : Request)
    (ran : r.perform .sealing sampleIdentity now s = .ok () t) (keyed : Keyed .sealing s) :
    Keyed .sealing t := by
  have kept := Request.keeps_perform (keeps_applyLocal .sealing sampleIdentity)
    (keeps_storeContent .sealing) now r s keyed
  rw [ran] at kept
  exact kept

private theorem movedNode_facts :
    returned ((Request.write "/d/f" [9]).perform .sealing sampleIdentity 10 emptyNode) = true ∧
    returned ((Request.rename "/d" "/e").perform .sealing sampleIdentity 11 filedNode) = true ∧
    emptyNode.next_counter.val + (Request.write "/d/f" [9]).cost ≤ 4 ∧
    filedNode.next_counter.val + (Request.rename "/d" "/e").cost ≤ 4 ∧
    splitPath "/e/f" = .ok ["e", "f"] ∧
    (Request.write "/d/f" [9]).act .bare (Request.components "/e") = none ∧
    movedTree ["e", "f"] = some (.file [9]) ∧
    Includes emptyNode filedNode ∧ Includes filedNode movedNode ∧
    Retains "/d/f" [9] 10 emptyNode filedNode := by
  decide +kernel

theorem emptyNode_boots : SoloRun .sealing sampleIdentity 7 4 0 .bare emptyNode :=
  .boot (blank_new 7) rfl (by decide) rfl

theorem emptyNode_keyed : Keyed .sealing emptyNode :=
  (emptyNode_boots.bears sealing_ideal Env.stored_decode sealing_injective (by decide)).1.solo.keyed

theorem movedNode_run : SoloRun .sealing sampleIdentity 7 4 11 movedTree movedNode := by
  obtain ⟨wrote, renamed, few, few', -, free, -, first, second, retains⟩ := movedNode_facts
  have keyed := (Request.write "/d/f" [9]).keyed (ran_of_returned wrote) emptyNode_keyed
  have keyed' := (Request.rename "/d" "/e").keyed (ran_of_returned renamed) keyed
  have filed : Granted .sealing sampleIdentity 4 10 (.write "/d/f" [9]) .bare emptyNode filedNode := by
    refine ⟨ran_of_returned wrote, few, ?_,
      apart_of_extends emptyNode_keyed keyed first.extends (by simp), ?_⟩
    · intro source target same
      cases same
    · intro path data same
      cases same
      exact ⟨by decide, fun _ _ _ _ made => retains.written emptyNode_keyed keyed made⟩
  have moved : Granted .sealing sampleIdentity 4 11 (.rename "/d" "/e")
      ((Request.write "/d/f" [9]).act .bare) filedNode movedNode := by
    refine ⟨ran_of_returned renamed, few', ?_,
      apart_of_extends keyed keyed' second.extends (by simp), ?_⟩
    · intro source target same
      cases same
      exact free
    · intro path data same
      cases same
  exact (emptyNode_boots.step (by decide) filed).step (by decide) moved

theorem solo_serves_tree_sample : SoloRun .sealing sampleIdentity 7 4 11 movedTree movedNode ∧
    readFilePath .sealing movedNode "/e/f" = .ok [9] := by
  obtain ⟨-, -, -, -, split, -, read, -⟩ := movedNode_facts
  exact ⟨movedNode_run, ((solo_serves_tree sealing_ideal Env.stored_decode sealing_injective (by decide)
    movedNode_run split).2.1 [9]).mpr read⟩

end Requests

end NexusFS.Net
