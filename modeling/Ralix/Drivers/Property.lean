import Ralix.Drivers.Bounds
import Ralix.Drivers.Mailbox
import Ralix.Drivers.Screen
import Ralix.Lib.TaggedMessage

/-!
# The frame buffer of the VC

`init_with_mode` of `src/drivers/framebuffer.rs`, which asks the VC for a frame buffer with a message of
seven tags, and `try_init_console` of `src/main.rs`, which tries the one of the device tree first, and
then three modes. The code writes and reads the words of the message by their numbers. As long as the VC
answers in place, these are the values of the tags (`init_with_mode`).
-/

namespace Ralix.Drivers

open Lib Mm Platform
open Dtb (Memory SimpleFbInfo findSimplefb)

def tagSetPhysWh : UInt32 := 0x00048003
def tagSetVirtWh : UInt32 := 0x00048004
def tagSetVirtOffset : UInt32 := 0x00048009
def tagSetDepth : UInt32 := 0x00048005
def tagSetPixelOrder : UInt32 := 0x00048006
def tagAllocateBuffer : UInt32 := 0x00040001
def tagGetPitch : UInt32 := 0x00040008

/-- `REQUEST`. -/
def requestCode : UInt32 := 0x00000000

inductive InitError where
  | mailboxCallFailed
  | noFramebuffer
  | noPitch
  | invalidSimpleFb
deriving DecidableEq, Repr

/-- `vc_to_arm`. -/
def Mailbox.vcToArm (board : Board) (addr : UInt32) : ℕ := (addr &&& vcMemMask board).toNat

/-- The words of the buffer of `init_with_mode` when it calls the VC. -/
def requestWords (width height : UInt32) : List UInt32 :=
  [35 * 4, requestCode,
    tagSetPhysWh, 8, 8, width, height,
    tagSetVirtWh, 8, 8, width, height,
    tagSetVirtOffset, 8, 8, 0, 0,
    tagSetDepth, 4, 4, 32,
    tagSetPixelOrder, 4, 4, 1,
    tagAllocateBuffer, 8, 8, 4096, 0,
    tagGetPitch, 4, 4, 0,
    0]

/-- The mailbox, whose response is in the second word of a buffer. -/
def Mailbox.Device.withBuffer (device : Mailbox.Device) (buf : List UInt32) : Mailbox.Device :=
  fun log r => if r = .response then buf.getD 1 0 else device log r

/-- The VC: its mailbox, and what it makes of the words of a buffer. -/
structure Vc where
  device : Mailbox.Device
  answer : List UInt32 → List UInt32

namespace Framebuffer

/-- What `init_with_mode` makes of the words that the VC has left. -/
def ofWords (board : Board) (width height : UInt32) (buf : List UInt32) :
    Except InitError Framebuffer :=
  let fbBus := buf.getD 28 0
  let pitch := buf.getD 33 0
  if fbBus = 0 then .error .noFramebuffer
  else if pitch = 0 then .error .noPitch
  else
    let outWidth := if buf.getD 10 0 ≠ 0 then buf.getD 10 0 else width
    let outHeight := if buf.getD 11 0 ≠ 0 then buf.getD 11 0 else height
    .ok ⟨physToVirt (Mailbox.vcToArm board fbBus), outWidth, outHeight, pitch⟩

/-- `init_with_mode`, with its buffer at an address. -/
def initWithMode (board : Board) (vc : Vc) (mbox : ℕ) (width height : UInt32) :
    Exec (Except InitError Framebuffer) := do
  let buf := vc.answer (requestWords width height)
  let (ok, _) ← Mailbox.call board (vc.device.withBuffer buf) mbox
  if !ok then return .error .mailboxCallFailed
  return ofWords board width height buf

end Framebuffer

/-! ## The console -/

/-- `init_console_with_mode` and `init_console_from_simplefb`, once there is a frame buffer: it is
cleared, and gets a console. -/
def initConsole (fb : Framebuffer) (fg bg : UInt32) : List Access × Console :=
  (fb.clear bg, Console.new fb fg bg)

/-- The modes that `try_init_console` tries. -/
def modes : List (UInt32 × UInt32) := [(1280, 1024), (1024, 768), (1920, 1080)]

/-- The colors of the console. -/
def consoleFg : UInt32 := 0x00FFFFFF
def consoleBg : UInt32 := 0x00000000

/-- The loop of `try_init_console` over the modes. The VC may be another one at each attempt. -/
def tryModes (board : Board) (vcs : ℕ → Vc) (mbox : ℕ) :
    ℕ → List (UInt32 × UInt32) → Exec (Option (List Access × Console))
  | _, [] => .ok none
  | k, (w, h) :: rest => do
    match ← Framebuffer.initWithMode board (vcs k) mbox w h with
    | .ok fb => return some (initConsole fb consoleFg consoleBg)
    | .error _ => tryModes board vcs mbox (k + 1) rest

/-- `try_init_console`: the console, and the accesses to its frame buffer, if there is one. -/
def tryInitConsole (board : Board) (mem : Memory) (dtbPa : ℕ) (vcs : ℕ → Vc) (mbox : ℕ) :
    Exec (Option (List Access × Console)) := do
  match (← findSimplefb mem dtbPa).bind Framebuffer.initFromSimplefb with
  | some fb => return some (initConsole fb consoleFg consoleBg)
  | none => tryModes board vcs mbox 0 modes

/-! ## The words are tags -/

/-- The message that `init_with_mode` sends. -/
def requestMessage (width height : UInt32) : Message where
  code := requestCode
  tags := [⟨tagSetPhysWh, 8, [width, height]⟩, ⟨tagSetVirtWh, 8, [width, height]⟩,
    ⟨tagSetVirtOffset, 8, [0, 0]⟩, ⟨tagSetDepth, 4, [32]⟩, ⟨tagSetPixelOrder, 4, [1]⟩,
    ⟨tagAllocateBuffer, 8, [4096, 0]⟩, ⟨tagGetPitch, 4, [0]⟩]

/-- A VC that answers in place: whatever it makes of the values, each of them stays where it was. -/
def Vc.InPlace (vc : Vc) : Prop :=
  ∀ m : Message, m.Fits → ∃ m' : Message, m'.shape = m.shape ∧ vc.answer m.encode = m'.encode

/-- A frame buffer, as the tags of a message describe it. -/
def Framebuffer.ofMessage (board : Board) (width height : UInt32) (m : Message) :
    Except InitError Framebuffer :=
  if m.word tagAllocateBuffer 0 = 0 then .error .noFramebuffer
  else if m.word tagGetPitch 0 = 0 then .error .noPitch
  else
    let outWidth := if m.word tagSetVirtWh 0 ≠ 0 then m.word tagSetVirtWh 0 else width
    let outHeight := if m.word tagSetVirtWh 1 ≠ 0 then m.word tagSetVirtWh 1 else height
    .ok ⟨physToVirt (Mailbox.vcToArm board (m.word tagAllocateBuffer 0)), outWidth, outHeight,
      m.word tagGetPitch 0⟩

section Words

variable {board : Board} {width height : UInt32} {m : Message}

/-- The words are those of the message. -/
theorem requestWords_eq (width height : UInt32) :
    requestWords width height = (requestMessage width height).encode := rfl

/-- The message fits. -/
theorem requestMessage_fits (width height : UInt32) : (requestMessage width height).Fits where
  tags := by
    have hfits : ∀ {id code : UInt32} {value : List UInt32}, id ≠ 0 → value.length ≤ 2 →
        Tag.Fits ⟨id, code, value⟩ := by
      intro id code value hid hlen
      refine ⟨hid, ?_⟩
      show 4 * value.length < 2^32
      omega
    simp only [requestMessage, List.forall_mem_cons]
    refine ⟨?_, ?_, ?_, ?_, ?_, ?_, ?_, nofun⟩ <;>
      exact hfits (by decide) (Nat.le_of_ble_eq_true rfl)
  size := by
    have hlen : (Message.encodeTags (requestMessage width height).tags).length = 33 := rfl
    rw [hlen]
    decide

/-- The tags that the code sends, and the lengths of their values. -/
def requestShape : List (UInt32 × ℕ) :=
  [(tagSetPhysWh, 2), (tagSetVirtWh, 2), (tagSetVirtOffset, 2), (tagSetDepth, 1),
    (tagSetPixelOrder, 1), (tagAllocateBuffer, 2), (tagGetPitch, 1)]

/-- The words that the code reads are those of the tags. -/
theorem ofWords_encode (h : m.shape = requestShape) :
    Framebuffer.ofWords board width height m.encode = Framebuffer.ofMessage board width height m := by
  have hword : ∀ {k j len : ℕ} {id : UInt32}, requestShape[k]? = some (id, len) →
      id ∉ (requestShape.take k).map Prod.fst → j < len →
        m.encode.getD (Message.valueOffset requestShape k + j) 0 = m.word id j := by
    intro k j len id hk hfirst hj
    rw [← h] at hk hfirst ⊢
    exact Message.getD_encode hk hfirst hj
  have hwidth : m.encode.getD 10 0 = m.word tagSetVirtWh 0 :=
    hword (k := 1) rfl (by decide) Nat.zero_lt_two
  have hheight : m.encode.getD 11 0 = m.word tagSetVirtWh 1 :=
    hword (k := 1) rfl (by decide) Nat.one_lt_two
  have haddr : m.encode.getD 28 0 = m.word tagAllocateBuffer 0 :=
    hword (k := 5) rfl (by decide) Nat.zero_lt_two
  have hpitch : m.encode.getD 33 0 = m.word tagGetPitch 0 :=
    hword (k := 6) rfl (by decide) Nat.zero_lt_one
  unfold Framebuffer.ofWords Framebuffer.ofMessage
  rw [hwidth, hheight, haddr, hpitch]

/-- The mailbox call returns, and only if the code in the buffer is that of a response, with true. -/
theorem exists_call (board : Board) (device : Mailbox.Device) (m : Message) (mbox : ℕ) :
    ∃ ok log, Mailbox.call board (device.withBuffer m.encode) mbox = .ok (ok, log) ∧
      (ok = true → m.code = Mailbox.responseOk) := by
  unfold Mailbox.call
  by_cases halign : mbox &&& 0xF = 0
  · rw [if_neg (not_not.mpr halign)]
    obtain ⟨⟨ok, log⟩, hrun, hspec⟩ :=
      Mailbox.Call.callLoop_spec (device.withBuffer m.encode) (Mailbox.busAddr board mbox)
    refine ⟨ok, log, hrun, fun hok => ?_⟩
    obtain ⟨word, before, hlog, -⟩ := hspec.accepted hok
    have hanswers := hspec.answers
    dsimp only at hlog
    rw [hlog] at hanswers
    -- The last access of the call was the read of the code.
    exact (hanswers.1 nofun).symm
  · rw [if_pos halign]
    exact ⟨false, [], rfl, nofun⟩

end Words

/-- A VC that takes a message from the words of a buffer, and puts its answer in their place. -/
def Vc.ofReply (device : Mailbox.Device) (reply : Message → Message) : Vc where
  device := device
  answer words := ((Message.decode words).map fun m => (reply m).encode).getD words

/-- It answers in place if its answers have the shapes of the messages. -/
theorem Vc.inPlace_ofReply {device : Mailbox.Device} {reply : Message → Message}
    (h : ∀ m, (reply m).shape = m.shape) : (Vc.ofReply device reply).InPlace := by
  intro m hfits
  refine ⟨reply m, h m, ?_⟩
  show ((Message.decode m.encode).map _).getD _ = _
  rw [Message.decode_encode hfits]
  rfl

/-- A VC that marks every message as a response, and leaves the values as they are. -/
def idleVc : Vc := .ofReply Mailbox.promptDevice fun m => { m with code := Mailbox.responseOk }

/-- What `try_init_console` has tried before it got a frame buffer of the VC. -/
structure Tried (board : Board) (vcs : ℕ → Vc) (mbox : ℕ) (n : ℕ) : Prop where
  failed : ∀ k < n, ∀ w h, modes[k]? = some (w, h) →
    ∃ e, Framebuffer.initWithMode board (vcs k) mbox w h = .ok (.error e)

/-- Where a frame buffer of `try_init_console` is from. -/
inductive FirstScreen (board : Board) (mem : Memory) (dtbPa : ℕ) (vcs : ℕ → Vc) (mbox : ℕ) :
    Option Framebuffer → Prop
  /-- From the device tree. -/
  | simplefb {info : SimpleFbInfo} {fb : Framebuffer} : findSimplefb mem dtbPa = .ok (some info) →
      Framebuffer.initFromSimplefb info = some fb → FirstScreen board mem dtbPa vcs mbox (some fb)
  /-- From the VC, for the first mode that works. -/
  | mode {n : ℕ} {w h : UInt32} {fb : Framebuffer} :
      (∀ info, findSimplefb mem dtbPa = .ok (some info) → Framebuffer.initFromSimplefb info = none) →
      Tried board vcs mbox n → modes[n]? = some (w, h) →
      Framebuffer.initWithMode board (vcs n) mbox w h = .ok (.ok fb) →
      FirstScreen board mem dtbPa vcs mbox (some fb)
  /-- There is none. -/
  | none : (∀ info, findSimplefb mem dtbPa = .ok (some info) → Framebuffer.initFromSimplefb info = .none) →
      Tried board vcs mbox modes.length → FirstScreen board mem dtbPa vcs mbox .none

section First

variable {board : Board} {mem : Memory} {dtbPa : ℕ} {vcs : ℕ → Vc} {mbox : ℕ}

/-- `init_with_mode` returns, whatever the VC does. -/
theorem exists_initWithMode (board : Board) (vc : Vc) (mbox : ℕ) (width height : UInt32) :
    ∃ r, Framebuffer.initWithMode board vc mbox width height = .ok r := by
  have hcall : ∀ device, ∃ ok log, Mailbox.call board device mbox = .ok (ok, log) := by
    intro device
    unfold Mailbox.call
    by_cases halign : mbox &&& 0xF = 0
    · rw [if_neg (not_not.mpr halign)]
      obtain ⟨⟨ok, log⟩, hrun, -⟩ := Mailbox.Call.callLoop_spec device (Mailbox.busAddr board mbox)
      exact ⟨ok, log, hrun⟩
    · rw [if_pos halign]
      exact ⟨false, [], rfl⟩
  obtain ⟨ok, log, hcall⟩ := hcall (vc.device.withBuffer (vc.answer (requestWords width height)))
  unfold Framebuffer.initWithMode
  dsimp only
  rw [hcall]
  cases ok with
  | false => exact ⟨_, rfl⟩
  | true => exact ⟨_, rfl⟩

/-- The loop over the modes finds the first that works. -/
theorem tryModes_first
    (hnone : ∀ info, findSimplefb mem dtbPa = .ok (some info) →
      Framebuffer.initFromSimplefb info = none)
    {k : ℕ} {rest : List (UInt32 × UInt32)} (hrest : modes.drop k = rest)
    (htried : Tried board vcs mbox k) : ∃ fb, FirstScreen board mem dtbPa vcs mbox fb ∧
      tryModes board vcs mbox k rest = .ok (fb.map fun fb => initConsole fb consoleFg consoleBg) := by
  induction rest generalizing k with
  | nil =>
    have hle : modes.length ≤ k := List.drop_eq_nil_iff.mp hrest
    exact ⟨none, .none hnone ⟨fun j hj => htried.failed j (hj.trans_le hle)⟩, rfl⟩
  | cons mode rest ih =>
    obtain ⟨w, h⟩ := mode
    have hk : modes[k]? = some (w, h) := by
      rw [← Nat.add_zero k, ← List.getElem?_drop, hrest]
      rfl
    have hdrop : modes.drop (k + 1) = rest := by rw [← List.drop_drop, hrest, List.drop_one]; rfl
    obtain ⟨r, hr⟩ := exists_initWithMode board (vcs k) mbox w h
    rw [tryModes, hr]
    cases r with
    | ok fb => exact ⟨some fb, .mode hnone htried hk hr, rfl⟩
    | error e =>
      refine ih hdrop ⟨fun j hj w' h' hj' => ?_⟩
      rcases Nat.lt_succ_iff_lt_or_eq.mp hj with hlt | rfl
      · exact htried.failed j hlt w' h' hj'
      · obtain ⟨rfl, rfl⟩ := Prod.mk.inj (Option.some.inj (hk.symm.trans hj'))
        exact ⟨e, hr⟩

end First

/-- Whatever the firmware left in the device tree and whatever the VC does at each attempt, if the walk
of the tree returns then so does `try_init_console`, with a console on the first frame buffer that
works, of the tree, or else of the VC in one of the modes in turn. If the frame buffer has a geometry,
it shows from then on what is written to the console, and nothing that was in it before. -/
theorem console_up (board : Board) (mem : Memory) (dtbPa : ℕ) (vcs : ℕ → Vc) (mbox : ℕ)
    (found : Option SimpleFbInfo) (hfound : findSimplefb mem dtbPa = .ok found) :
    ∃ fb, FirstScreen board mem dtbPa vcs mbox fb ∧
      tryInitConsole board mem dtbPa vcs mbox =
        .ok (fb.map fun fb => initConsole fb consoleFg consoleBg) ∧
      ∀ fb', fb = some fb' → fb'.Geometry → ∀ vram bytes,
        let (cleared, console) := initConsole fb' consoleFg consoleBg
        fb'.Shows (Access.run vram (cleared ++ (console.writeBytes bytes).1))
          ((fb'.blank.putAll bytes).picture consoleFg consoleBg) := by
  have hshows : ∀ fb' : Framebuffer, fb'.Geometry → ∀ vram bytes,
      fb'.Shows (Access.run vram (fb'.clear consoleBg ++
        ((Console.new fb' consoleFg consoleBg).writeBytes bytes).1))
        ((fb'.blank.putAll bytes).picture consoleFg consoleBg) :=
    fun fb' hgeom vram bytes => hgeom.shows_writeBytes consoleFg consoleBg vram bytes
  unfold tryInitConsole
  rw [hfound]
  cases hbind : found.bind Framebuffer.initFromSimplefb with
  | some fb =>
    obtain ⟨info, rfl, hinit⟩ := Option.bind_eq_some_iff.mp hbind
    refine ⟨some fb, .simplefb hfound hinit, ?_, fun fb' _ hgeom => hshows fb' hgeom⟩
    show (match (some info).bind Framebuffer.initFromSimplefb with | some fb => _ | none => _) = _
    rw [hbind]
    rfl
  | none =>
    have hnone : ∀ info, findSimplefb mem dtbPa = .ok (some info) →
        Framebuffer.initFromSimplefb info = none := by
      intro info hinfo
      obtain rfl : found = some info := Except.ok.inj (hfound.symm.trans hinfo)
      exact hbind
    obtain ⟨fb, hfirst, hmodes⟩ :=
      @tryModes_first board mem dtbPa vcs mbox hnone 0 modes rfl ⟨nofun⟩
    refine ⟨fb, hfirst, ?_, fun fb' _ hgeom => hshows fb' hgeom⟩
    show (match found.bind Framebuffer.initFromSimplefb with | some fb => _ | none => _) = _
    rw [hbind]
    exact hmodes

/-- `console_up` for the frame buffer of a device tree. -/
theorem console_up_thin : ∃ fb, FirstScreen .rpi5 (Memory.holding 4096 thinBlob.bytes) 4096
    (fun _ => idleVc) 0x200000 fb ∧ ∀ fb', fb = some fb' → fb'.Geometry → ∀ vram bytes,
      fb'.Shows (Access.run vram (fb'.clear consoleBg ++
        ((Console.new fb' consoleFg consoleBg).writeBytes bytes).1))
        ((fb'.blank.putAll bytes).picture consoleFg consoleBg) := by
  obtain ⟨fb, hfirst, -, hshows⟩ :=
    console_up .rpi5 _ 4096 (fun _ => idleVc) 0x200000 _ findSimplefb_thin
  exact ⟨fb, hfirst, hshows⟩

end Ralix.Drivers
