/-
# PTEditor.Linux.Clients -- any number of clients of the device at once

The library's PTE calls are two requests through the device, a resolve and an update, or
one for `ptedit_update`.  The device serves the requests of its clients in any order, and
an update sends back a word that was read some turns ago.

A fleet is a kernel and its clients, each with the calls it has still to make.  Every turn
is a turn of `PTEditor.Theory.OwnedUpdates` on the map from pages to PTEs (`shop_serve`),
so clients that work on different pages do not lose each other's updates, in whatever
order they are served: `interleaved_clients_lose_nothing`.
-/
import PTEditor.Linux.KernelEdits
import PTEditor.Theory.OwnedUpdates

namespace PTEditor.Linux.Clients

open PTEditor.Theory.ByteMemory PTEditor.Theory.RadixTree PTEditor.Theory.Runs
open PTEditor.Theory.OwnedUpdates PTEditor.Interface PTEditor.Module PTEditor.Library
open PTEditor.Library.X86Walk PTEditor.Library.PageMap PTEditor.Linux.Agreement
open PTEditor.Linux.KernelEdits

set_option autoImplicit false
set_option linter.unusedSectionVars false

/-! ## Fleets -/

/-- A process that uses the library with `PTEDIT_IMPL_KERNEL`: the PTE calls it has still to
make, and the answer to its last resolve if its update is outstanding. -/
structure Client where
  current : Process
  script : List PteCall
  held : Option Entry

structure Fleet (Id : Type) where
  kernel : Kernel
  client : Id → Client

section Serve

variable {Id : Type} [DecidableEq Id] (P : Platform)

def Fleet.advance (x : Fleet Id) (c : Id) (kernel : Kernel) (script : List PteCall)
    (held : Option Entry) : Fleet Id :=
  { kernel
    client := fun d => if d = c then { x.client d with script, held } else x.client d }

/-- The kernel after `ptedit_update` of a call's address with the PTE mask. -/
def sendPte (current : Process) (call : PteCall) (vm : Entry) (k : Kernel) : Kernel :=
  (ioctlVmUpdate P current
    { vm with vaddr := call.address, pid := call.pid.signExtend 64, valid := Level.pte.mask } k).2

def serve (c : Id) (x : Fleet Id) : Fleet Id :=
  let client := x.client c
  match client.script with
  | [] => x
  | call :: rest =>
      match call.op with
      | .update vm => x.advance c (sendPte P client.current call vm x.kernel) rest none
      | op =>
          match client.held with
          | some vm =>
              let vm := { vm with pte := op.onWord P.arch vm.pte }
              x.advance c (sendPte P client.current call vm x.kernel) rest none
          | none =>
              let answer := ioctlVmResolve P client.current
                (Entry.zeroed call.address (call.pid.signExtend 64)) x.kernel
              if marks answer.2.1.valid .pte then
                x.advance c answer.2.2 (call :: rest) (some answer.2.1)
              else x.advance c answer.2.2 rest none

end Serve

/-! ## Pages -/

abbrev Page := BitVec 36

def pageOf (addr : Word) : Page := addr.extractLsb' 12 36

def addressOf (page : Page) : Word := (page ++ 0#12).setWidth 64

theorem pageOf_addressOf (page : Page) : pageOf (addressOf page) = page := by
  apply BitVec.eq_of_getLsbD_eq
  intro i bound
  simp only [pageOf, addressOf, BitVec.getLsbD_extractLsb', BitVec.getLsbD_setWidth,
    BitVec.getLsbD_append, bound, decide_true, Bool.true_and]
  have inside : 12 + i < 64 := by omega
  simp [inside]

theorem samePage_eq (a b : Word) : samePage a b = decide (pageOf a = pageOf b) := rfl

theorem samePage_addressOf (a : Word) (page : Page) :
    samePage a (addressOf page) = decide (pageOf a = page) := by
  rw [samePage_eq, pageOf_addressOf]

/-- The leaf is a matter of the page. -/
theorem leafAt_addressOf (mem : Mem) (root a : Word) :
    leafAt mem root (addressOf (pageOf a)) = leafAt mem root a := by
  have same : samePage (addressOf (pageOf a)) a = true := by
    rw [samePage_eq, pageOf_addressOf, decide_eq_true rfl]
  obtain ⟨path, index⟩ := (samePage_iff _ a).mp same
  rw [leafAt, leafAt, path, index]

/-! ## The map the clients work on -/

def workOf (call : PteCall) : Work Page Word :=
  match call.op with
  | .update vm => .put (pageOf call.address) vm.pte
  | op => .modify (pageOf call.address) (op.onWord .x86_64)

theorem workOf_key (call : PteCall) : (workOf call).key = pageOf call.address := by
  obtain ⟨op, address, pid⟩ := call
  cases op <;> rfl

theorem workOf_onValue (call : PteCall) (w : Word) :
    (workOf call).onValue w = call.op.onWord .x86_64 w := by
  obtain ⟨op, address, pid⟩ := call
  cases op <;> rfl

theorem workOf_modify {call : PteCall} (modifies : ∀ vm, call.op ≠ .update vm) :
    workOf call = .modify (pageOf call.address) (call.op.onWord .x86_64) := by
  obtain ⟨op, address, pid⟩ := call
  cases op with
  | update vm => exact absurd rfl (modifies vm)
  | setBit bit => rfl
  | clearBit bit => rfl
  | setPfn pfn => rfl

theorem workOn_workOf (b : Word) (calls : List PteCall) (w : Word) :
    workOn (pageOf b) (calls.map workOf) w = opsOn b calls w := by
  induction calls generalizing w with
  | nil => rfl
  | cons call rest ih =>
      rw [List.map_cons, workOn_cons, ih, workOf_key, workOf_onValue]
      simp only [opsOn, List.foldl_cons, samePage_eq, decide_eq_true_eq]

section Simulation

variable {Id : Type} [DecidableEq Id] {P : Platform} {root : Word}

/-- A fleet as clients of the map from pages to PTEs. -/
def shop (root : Word) (x : Fleet Id) : Shop Id Page Word where
  store page := leafAt x.kernel.mem root (addressOf page)
  desk c := ⟨(x.client c).script.map workOf, (x.client c).held.map Entry.pte⟩

/-- What is known of a call that has not been made. -/
structure Sound (P : Platform) (root : Word) (k : Kernel) (current : Process) (call : PteCall) :
    Prop where
  target : ∃ mm, Names P k current (call.pid.signExtend 64) root mm
  orderly : OrderlyWalk P k.mem root call.address

/-- The tables are a tree, and all calls are sound. -/
structure Sane (P : Platform) (root : Word) (x : Fleet Id) : Prop where
  shaped : TreeShapedMemory x.kernel.mem root
  sound : ∀ c, ∀ call ∈ (x.client c).script, Sound P root x.kernel (x.client c).current call

theorem Sound.leafEdit {k k' : Kernel} {current : Process} {call : PteCall}
    (sound : Sound P root k current call) (shaped : TreeShapedMemory k.mem root)
    (steady : k.Steady k') {b : Word} {change : Word → Word}
    (edited : tables k'.mem = editStep follow (rootFrame root) (tables k.mem) (leafEdit b change)) :
    Sound P root k' current call := by
  obtain ⟨mm, names⟩ := sound.target
  exact ⟨⟨mm, names.steady steady⟩, orderlyWalk_leafEdit sound.orderly shaped edited⟩

theorem Sound.quiet {k k' : Kernel} {current : Process} {call : PteCall}
    (sound : Sound P root k current call) (quiet : k.Quiet k') : Sound P root k' current call := by
  obtain ⟨mm, names⟩ := sound.target
  refine ⟨⟨mm, names.steady quiet.steady⟩, ?_⟩
  rw [quiet.mem_eq]
  exact sound.orderly

theorem sendPte_steady (current : Process) (call : PteCall) (vm : Entry) (k : Kernel) :
    k.Steady (sendPte P current call vm k) :=
  updateVm_steady P current _ _ k

/-- An update edits the leaf of its call. -/
theorem sendPte_tables (four : FourLevel P) {k : Kernel} {current : Process} {call : PteCall}
    (sound : Sound P root k current call) (vm : Entry) :
    tables (sendPte P current call vm k).mem =
      editStep follow (rootFrame root) (tables k.mem) (leafEdit call.address fun _ => vm.pte) := by
  obtain ⟨mm, names⟩ := sound.target
  exact vmUpdate_tables four names sound.orderly _ rfl rfl rfl

/-- What serving a client can be. -/
inductive Served (P : Platform) (c : Id) (x : Fleet Id) : Fleet Id → Prop where
  | nothing (script : (x.client c).script = []) : Served P c x x
  | resolved {call : PteCall} {rest : List PteCall} {answer : Entry} {k : Kernel}
      (script : (x.client c).script = call :: rest) (modifies : ∀ vm, call.op ≠ .update vm)
      (held : (x.client c).held = none)
      (record : (ioctlVmResolve P (x.client c).current
        (Entry.zeroed call.address (call.pid.signExtend 64)) x.kernel).2 = (answer, k)) :
      Served P c x
        (if marks answer.valid .pte then x.advance c k (call :: rest) (some answer)
          else x.advance c k rest none)
  | updated {call : PteCall} {rest : List PteCall} {vm : Entry}
      (script : (x.client c).script = call :: rest)
      (sent : call.op = .update vm ∨ ∃ answer, (∀ vm, call.op ≠ .update vm) ∧
        (x.client c).held = some answer ∧ vm.pte = call.op.onWord P.arch answer.pte) :
      Served P c x (x.advance c (sendPte P (x.client c).current call vm x.kernel) rest none)

theorem serve_served (P : Platform) (c : Id) (x : Fleet Id) : Served P c x (serve P c x) := by
  have modify : ∀ {call : PteCall} {rest : List PteCall}, (x.client c).script = call :: rest →
      (∀ vm, call.op ≠ .update vm) →
      serve P c x = (match (x.client c).held with
        | some vm =>
            x.advance c (sendPte P (x.client c).current call
              { vm with pte := call.op.onWord P.arch vm.pte } x.kernel) rest none
        | none =>
            let answer := ioctlVmResolve P (x.client c).current
              (Entry.zeroed call.address (call.pid.signExtend 64)) x.kernel
            if marks answer.2.1.valid .pte then
              x.advance c answer.2.2 (call :: rest) (some answer.2.1)
            else x.advance c answer.2.2 rest none) := by
    rintro ⟨op, address, pid⟩ rest script modifies
    cases op with
    | update vm => exact absurd rfl (modifies vm)
    | setBit bit => simp only [serve, script]
    | clearBit bit => simp only [serve, script]
    | setPfn pfn => simp only [serve, script]
  cases script : (x.client c).script with
  | nil =>
      have nothing : serve P c x = x := by simp only [serve, script]
      rw [nothing]
      exact .nothing script
  | cons call rest =>
      by_cases update : ∃ vm, call.op = .update vm
      · obtain ⟨vm, op⟩ := update
        have stored : serve P c x =
            x.advance c (sendPte P (x.client c).current call vm x.kernel) rest none := by
          simp only [serve, script, op]
        rw [stored]
        exact .updated script (.inl op)
      · have modifies : ∀ vm, call.op ≠ .update vm := fun vm op => update ⟨vm, op⟩
        rw [modify script modifies]
        cases held : (x.client c).held with
        | none => exact .resolved script modifies held rfl
        | some answer => exact .updated script (.inr ⟨answer, modifies, held, rfl⟩)

section Advance

variable (x : Fleet Id) (c : Id) (k : Kernel) (script : List PteCall) (held : Option Entry)

@[simp] theorem advance_kernel : (x.advance c k script held).kernel = k := rfl

@[simp] theorem advance_self : (x.advance c k script held).client c =
    { x.client c with script, held } := if_pos rfl

theorem advance_other {d : Id} (other : d ≠ c) :
    (x.advance c k script held).client d = x.client d := if_neg other

/-- The scripts of a fleet in which one client has moved on. -/
theorem mem_advance_script {call : PteCall} {d : Id}
    (member : call ∈ ((x.advance c k script held).client d).script)
    (shorter : script ⊆ (x.client c).script) :
    call ∈ (x.client d).script ∧
      ((x.advance c k script held).client d).current = (x.client d).current := by
  by_cases other : d ≠ c
  · rw [advance_other x c k script held other] at member ⊢
    exact ⟨member, rfl⟩
  · obtain rfl := not_ne_iff.mp other
    rw [advance_self] at member ⊢
    exact ⟨shorter member, rfl⟩

end Advance

theorem shop_advance (x : Fleet Id) (c : Id) (k : Kernel) (script : List PteCall)
    (held : Option Entry) :
    (shop root (x.advance c k script held)).desk =
      ((shop root x).setDesk c ⟨script.map workOf, held.map Entry.pte⟩).desk := by
  funext d
  by_cases other : d ≠ c
  · rw [setDesk_other _ c _ other]
    simp only [shop, advance_other x c k script held other]
  · obtain rfl := not_ne_iff.mp other
    rw [setDesk_self]
    simp only [shop, advance_self]

/-- A resolve does not show in the map; an update writes its cell. -/
theorem shop_store_sendPte (four : FourLevel P) {x : Fleet Id}
    (shaped : TreeShapedMemory x.kernel.mem root) {current : Process} {call : PteCall}
    (sound : Sound P root x.kernel current call) (vm : Entry) (page : Page) :
    leafAt (sendPte P current call vm x.kernel).mem root (addressOf page) =
      ((shop root x).write (workOf call).key vm.pte).store page := by
  rw [leafAt_leafEdit shaped (sendPte_tables four sound vm), samePage_addressOf, workOf_key]
  by_cases here : page = pageOf call.address
  · subst here
    rw [write_here]
    simp only [decide_true, if_true]
    rfl
  · rw [write_elsewhere _ _ here]
    simp only [decide_eq_true_eq, Ne.symm here, if_false, Option.map_id']
    rfl

theorem shop_store_quiet {x : Fleet Id} {k : Kernel} (quiet : x.kernel.Quiet k) (page : Page) :
    leafAt k.mem root (addressOf page) = (shop root x).store page := by
  rw [quiet.mem_eq]
  rfl

/-- Serving keeps a fleet sane. -/
theorem Sane.serve (four : FourLevel P) {x : Fleet Id} (sane : Sane P root x) (c : Id) :
    Sane P root (serve P c x) := by
  have served := serve_served P c x
  generalize Clients.serve P c x = y at served
  -- A resolve leaves the memory alone.
  have quietly : ∀ {k : Kernel} {script : List PteCall} (held : Option Entry), x.kernel.Quiet k →
      script ⊆ (x.client c).script → Sane P root (x.advance c k script held) := by
    intro k script held quiet shorter
    refine ⟨?_, ?_⟩
    · rw [advance_kernel, quiet.mem_eq]
      exact sane.shaped
    · intro d call member
      obtain ⟨before, current⟩ := mem_advance_script x c k script held member shorter
      rw [advance_kernel, current]
      exact (sane.sound d call before).quiet quiet
  cases served with
  | nothing script => exact sane
  | @resolved call rest answer k script modifies held record =>
      have quiet := resolve_quiet P (x.client c).current
        (Entry.zeroed call.address (call.pid.signExtend 64)) x.kernel
      rw [record] at quiet
      split
      · exact quietly _ quiet (by rw [script]; exact List.Subset.refl _)
      · exact quietly _ quiet (by rw [script]; exact List.subset_cons_self _ _)
  | @updated call rest vm script sent =>
      have sound := sane.sound c call (by rw [script]; exact List.mem_cons_self)
      have edited := sendPte_tables four sound vm
      have steady := sendPte_steady (P := P) (x.client c).current call vm x.kernel
      refine ⟨treeShaped_leafEdit sane.shaped edited, ?_⟩
      intro d other member
      obtain ⟨before, current⟩ := mem_advance_script x c _ rest none member
        (by rw [script]; exact List.subset_cons_self _ _)
      rw [advance_kernel, current]
      exact (sane.sound d other before).leafEdit sane.shaped steady edited

/-- **A request served is a turn on the map.** -/
theorem shop_serve (four : FourLevel P) {x : Fleet Id} (sane : Sane P root x) (c : Id) :
    shop root (serve P c x) = turn c (shop root x) := by
  have served := serve_served P c x
  generalize Clients.serve P c x = y at served
  have ext : ∀ {s t : Shop Id Page Word}, s.store = t.store → s.desk = t.desk → s = t := by
    rintro ⟨_, _⟩ ⟨_, _⟩ rfl rfl
    rfl
  cases served with
  | nothing script =>
      simp only [turn, shop, script, List.map_nil]
  | @resolved call rest answer k script modifies held record =>
      obtain ⟨⟨mm, names⟩, orderly⟩ := sane.sound c call (by rw [script]; exact List.mem_cons_self)
      have quiet := resolve_quiet P (x.client c).current
        (Entry.zeroed call.address (call.pid.signExtend 64)) x.kernel
      obtain ⟨marked, word⟩ := vmResolve_leaf four names orderly
      rw [record] at quiet marked word
      have todo : ((shop root x).desk c).todo =
          .modify (pageOf call.address) (call.op.onWord .x86_64) :: rest.map workOf := by
        simp only [shop, script, List.map_cons, workOf_modify modifies]
      have cell : (shop root x).store (pageOf call.address) = leafAt x.kernel.mem root call.address :=
        leafAt_addressOf _ _ _
      have notHeld : ((shop root x).desk c).held = none := by
        simp only [shop, held, Option.map_none]
      simp only [turn, todo, notHeld, cell]
      simp only [marked]
      cases leaf : leafAt x.kernel.mem root call.address with
      | none =>
          refine ext (funext fun page => shop_store_quiet quiet page) ?_
          exact shop_advance x c k rest none
      | some w =>
          rw [leaf, Option.getD_some] at word
          refine ext (funext fun page => shop_store_quiet quiet page) ?_
          refine (shop_advance x c k (call :: rest) (some answer)).trans ?_
          rw [List.map_cons, workOf_modify modifies, Option.map_some, word]
  | @updated call rest vm script sent =>
      have sound := sane.sound c call (by rw [script]; exact List.mem_cons_self)
      have stored : turn c (shop root x) =
          ((shop root x).write (workOf call).key vm.pte).setDesk c ⟨rest.map workOf, none⟩ := by
        have todo : ((shop root x).desk c).todo = workOf call :: rest.map workOf := by
          simp only [shop, script, List.map_cons]
        rcases sent with op | ⟨answer, modifies, held, value⟩
        · have work : workOf call = .put (pageOf call.address) vm.pte := by
            simp only [workOf, op]
          rw [work] at todo ⊢
          simp only [turn, todo, Work.key]
        · have here : ((shop root x).desk c).held = some answer.pte := by
            simp only [shop, held, Option.map_some]
          have change : vm.pte = call.op.onWord .x86_64 answer.pte := by
            rw [value, four.arch]
          rw [workOf_modify modifies] at todo ⊢
          simp only [turn, todo, here, Work.key, change]
      rw [stored]
      refine ext (funext fun page => shop_store_sendPte four sane.shaped sound vm page) ?_
      exact shop_advance x c _ rest none

/-- Serving changes no root and no process, and keeps every orderly walk. -/
theorem serve_keeps (four : FourLevel P) {x : Fleet Id} (sane : Sane P root x) (c : Id) :
    x.kernel.Steady (serve P c x).kernel ∧
      ∀ b, OrderlyWalk P x.kernel.mem root b → OrderlyWalk P (serve P c x).kernel.mem root b := by
  have served := serve_served P c x
  generalize Clients.serve P c x = y at served
  cases served with
  | nothing script => exact ⟨(Kernel.Quiet.refl _).steady, fun _ orderly => orderly⟩
  | @resolved call rest answer k script modifies held record =>
      have quiet := resolve_quiet P (x.client c).current
        (Entry.zeroed call.address (call.pid.signExtend 64)) x.kernel
      rw [record] at quiet
      have kernel : (if marks answer.valid .pte then x.advance c k (call :: rest) (some answer)
          else x.advance c k rest none).kernel = k := by
        split <;> rfl
      rw [kernel, quiet.mem_eq]
      exact ⟨quiet.steady, fun _ orderly => orderly⟩
  | @updated call rest vm script sent =>
      have sound := sane.sound c call (by rw [script]; exact List.mem_cons_self)
      exact ⟨sendPte_steady _ call vm x.kernel, fun b orderly =>
        orderlyWalk_leafEdit orderly sane.shaped (sendPte_tables four sound vm)⟩

/-- **A whole run, on the map.** -/
theorem shop_run (four : FourLevel P) (schedule : List Id) {x : Fleet Id} (sane : Sane P root x) :
    shop root (run (serve P) schedule x) = run turn schedule (shop root x) ∧
      x.kernel.Steady (run (serve P) schedule x).kernel ∧
      ∀ b, OrderlyWalk P x.kernel.mem root b →
        OrderlyWalk P (run (serve P) schedule x).kernel.mem root b := by
  induction schedule generalizing x with
  | nil => exact ⟨rfl, (Kernel.Quiet.refl _).steady, fun _ orderly => orderly⟩
  | cons c rest ih =>
      obtain ⟨same, steady, walks⟩ := ih (sane.serve four c)
      obtain ⟨steady₁, walks₁⟩ := serve_keeps four sane c
      refine ⟨same.trans ?_, steady₁.trans steady, fun b orderly => walks b (walks₁ b orderly)⟩
      rw [shop_serve four sane c]
      rfl

/-- **Clients of different pages lose nothing.**  Any number of clients make their PTE calls, and
the device serves their requests in any order.  If the calls for the page of `b` are those of one
client, then at any time the calls that client has still to make bring the PTE that a resolve
finds to what all of its calls make of the PTE at the start; with no calls left, it is there. -/
theorem interleaved_clients_lose_nothing (four : FourLevel P) {x : Fleet Id} (sane : Sane P root x)
    (idle : ∀ c, (x.client c).held = none)
    (apart : ∀ c d, c ≠ d → ∀ call ∈ (x.client c).script, ∀ call' ∈ (x.client d).script,
      samePage call.address call'.address = false)
    (schedule : List Id) (c : Id) (b : Word)
    (only : ∀ d, d ≠ c → ∀ call ∈ (x.client d).script, samePage call.address b = false)
    (orderly : OrderlyWalk P x.kernel.mem root b) {asker : Process} {pid : Word} {mm : Mm}
    (names : Names P x.kernel asker pid root mm) :
    let last := run (serve P) schedule x
    let before := (ioctlVmResolve P asker (Entry.zeroed b pid) x.kernel).2.1
    let after := (ioctlVmResolve P asker (Entry.zeroed b pid) last.kernel).2.1
    marks after.valid .pte = marks before.valid .pte ∧
      (marks before.valid .pte = true →
        opsOn b (last.client c).script after.pte = opsOn b (x.client c).script before.pte) := by
  intro last before after
  obtain ⟨same, steady, walks⟩ := shop_run four schedule sane
  have owned : Owned (shop root x) := by
    intro d e differ work member work' member'
    obtain ⟨call, called, rfl⟩ := List.mem_map.mp member
    obtain ⟨call', called', rfl⟩ := List.mem_map.mp member'
    have differs := apart d e differ call called call' called'
    rw [samePage_eq] at differs
    rw [workOf_key, workOf_key]
    exact of_decide_eq_false differs
  have upToDate : UpToDate (shop root x) := by
    intro d v work rest held
    simp only [shop, idle d, Option.map_none] at held
    cases held
  have onlyBy : OnlyBy c (pageOf b) (shop root x) := by
    intro d other work member
    obtain ⟨call, called, rfl⟩ := List.mem_map.mp member
    have differs := only d other call called
    rw [samePage_eq] at differs
    rw [workOf_key]
    exact of_decide_eq_false differs
  have settled := run_settles owned upToDate schedule onlyBy
  rw [← same] at settled
  simp only [Settles, shop, leafAt_addressOf] at settled
  obtain ⟨marked, word⟩ := vmResolve_leaf four names orderly
  obtain ⟨marked', word'⟩ := vmResolve_leaf four (names.steady steady) (walks b orderly)
  have ops : ∀ calls : List PteCall, workOn (pageOf b) (calls.map workOf) = opsOn b calls :=
    fun calls => funext (workOn_workOf b calls)
  rw [ops, ops] at settled
  refine ⟨?_, ?_⟩
  · rw [marked, marked']
    have some := congrArg Option.isSome settled
    rwa [Option.isSome_map, Option.isSome_map] at some
  · intro valid
    rw [marked] at valid
    obtain ⟨w, leaf⟩ := Option.isSome_iff_exists.mp valid
    rw [leaf, Option.map_some] at settled
    obtain ⟨w', leaf', reached⟩ := Option.map_eq_some_iff.mp settled
    rw [word', word, leaf, leaf']
    exact reached

theorem call_run_modify (call : PteCall) (modifies : ∀ vm, call.op ≠ .update vm) (s : System) :
    call.run P s = pteEdit P (call.op.onWord P.arch) call.address call.pid s := by
  obtain ⟨op, address, pid⟩ := call
  cases op with
  | update vm => exact absurd rfl (modifies vm)
  | setBit bit => rfl
  | clearBit bit => rfl
  | setPfn pfn => rfl

theorem serve_resolve {call : PteCall} {rest : List PteCall} {x : Fleet Id} {c : Id}
    {current : Process} (client : x.client c = ⟨current, call :: rest, none⟩)
    (modifies : ∀ vm, call.op ≠ .update vm) :
    serve P c x =
      let answer := ioctlVmResolve P current
        (Entry.zeroed call.address (call.pid.signExtend 64)) x.kernel
      if marks answer.2.1.valid .pte then
        x.advance c answer.2.2 (call :: rest) (some answer.2.1)
      else x.advance c answer.2.2 rest none := by
  obtain ⟨op, address, pid⟩ := call
  cases op with
  | update vm => exact absurd rfl (modifies vm)
  | setBit bit => simp only [serve, client]
  | clearBit bit => simp only [serve, client]
  | setPfn pfn => simp only [serve, client]

theorem serve_update {call : PteCall} {rest : List PteCall} {x : Fleet Id} {c : Id}
    {current : Process} {vm : Entry} (client : x.client c = ⟨current, call :: rest, some vm⟩)
    (modifies : ∀ vm, call.op ≠ .update vm) :
    serve P c x = x.advance c (sendPte P current call
      { vm with pte := call.op.onWord P.arch vm.pte } x.kernel) rest none := by
  obtain ⟨op, address, pid⟩ := call
  cases op with
  | update vm => exact absurd rfl (modifies vm)
  | setBit bit => simp only [serve, client]
  | clearBit bit => simp only [serve, client]
  | setPfn pfn => simp only [serve, client]

/-- Two threads of the process with one page: one sets bit 9 of its PTE, the other gives the page
behind it a frame. -/
def twoThreads : Fleet Bool where
  kernel := onePageKernel
  client thread :=
    { current := onePageProcess
      script := if thread then [⟨.setBit ⟨9, by decide⟩, 0, 0⟩] else [⟨.setPfn 7, 0x1000, 0⟩]
      held := none }

/-- Between the requests of the one, both requests of the other are served. -/
theorem interleaved_clients_lose_nothing_twoThreads :
    (ioctlVmResolve fourLevelPlatform onePageProcess (Entry.zeroed 0 0)
      (run (serve fourLevelPlatform) [true, false, false, true] twoThreads).kernel).2.1.pte =
        0x5207 := by
  have names : Names fourLevelPlatform onePageKernel onePageProcess 0 0x1000 0 :=
    ⟨by decide, fourLevelPlatform.virtToPhys_physToVirt 0x1000, by decide, by decide⟩
  have behind : OrderlyWalk fourLevelPlatform onePageMem 0x1000 0x1000 := by
    constructor <;> decide +kernel
  have sane : Sane fourLevelPlatform 0x1000 twoThreads := by
    refine ⟨onePageMem_treeShaped, ?_⟩
    intro thread call member
    cases thread with
    | true =>
        obtain rfl := List.mem_singleton.mp member
        exact ⟨⟨0, names⟩, onePage_orderly⟩
    | false =>
        obtain rfl := List.mem_singleton.mp member
        exact ⟨⟨0, names⟩, behind⟩
  have kept := interleaved_clients_lose_nothing fourLevelPlatform_fourLevel sane (fun _ => rfl)
    (by
      intro c d differ call member call' member'
      cases c <;> cases d
      · exact absurd rfl differ
      · obtain rfl := List.mem_singleton.mp member
        obtain rfl := List.mem_singleton.mp member'
        decide
      · obtain rfl := List.mem_singleton.mp member
        obtain rfl := List.mem_singleton.mp member'
        decide
      · exact absurd rfl differ)
    [true, false, false, true] true 0
    (by
      intro d other call member
      cases d with
      | true => exact absurd rfl other
      | false =>
          obtain rfl := List.mem_singleton.mp member
          decide)
    onePage_orderly names
  have valid : marks (ioctlVmResolve fourLevelPlatform onePageProcess (Entry.zeroed 0 0)
      twoThreads.kernel).2.1.valid .pte = true := by
    decide +kernel
  have through : ((run (serve fourLevelPlatform) [true, false, false, true] twoThreads).client
      true).script = [] := by
    rw [← List.isEmpty_iff]
    decide +kernel
  have last := kept.2 valid
  rw [through] at last
  refine last.trans ?_
  decide +kernel

/-- Served without interruption, the turns of a client are the library's call. -/
theorem pteCall_eq_turns {s : System} (resolve : s.lib.resolve = some .kernel)
    (update : s.lib.update = some .kernel) (call : PteCall) (rest : List PteCall) {x : Fleet Id}
    {c : Id} (kernel : x.kernel = s.kernel)
    (client : x.client c = ⟨s.current, call :: rest, none⟩) :
    ∃ turns, call.run P s = some { s with kernel := (run (serve P) turns x).kernel } ∧
      (run (serve P) turns x).client c = ⟨s.current, rest, none⟩ := by
  by_cases blind : ∃ vm, call.op = .update vm
  · obtain ⟨vm, op⟩ := blind
    have served : serve P c x = x.advance c (sendPte P s.current call vm x.kernel) rest none := by
      simp only [serve, client, op]
    refine ⟨[c], ?_, ?_⟩
    · simp only [run, served, advance_kernel, PteCall.run, op, pteditUpdate, update,
        pteditUpdateKernel, kernel, sendPte]
      rfl
    · simp only [run, served, advance_self, client]
  have modifies : ∀ vm, call.op ≠ .update vm := fun vm op => blind ⟨vm, op⟩
  have first := serve_resolve (P := P) client modifies
  rw [call_run_modify call modifies]
  simp only [pteEdit, pteditResolve, resolve, Option.bind_some, pteditResolveKernel, deviceIoctl,
    ← kernel]
  cases marked : marks (ioctlVmResolve P s.current
      (Entry.zeroed call.address (call.pid.signExtend 64)) x.kernel).2.1.valid .pte with
  | false =>
      simp only [marked, Bool.false_eq_true, if_false] at first ⊢
      refine ⟨[c], ?_, ?_⟩
      · simp only [run, first, advance_kernel]
      · simp only [run, first, advance_self, client]
  | true =>
      simp only [marked, if_true] at first ⊢
      have waiting := congrArg (fun y => y.client c) first
      simp only [advance_self, client] at waiting
      have second := serve_update (P := P) waiting modifies
      refine ⟨[c, c], ?_, ?_⟩
      · simp only [run, second, advance_kernel, pteditUpdate, update, pteditUpdateKernel, sendPte]
        rw [first]
        rfl
      · simp only [run, second, advance_self]
        rw [first, advance_self, client]

end Simulation

end PTEditor.Linux.Clients
