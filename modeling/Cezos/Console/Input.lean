import Cezos.Lib.Ring
import Cezos.Lib.Trace
import Cezos.Console.Cga
import Cezos.Stdio.Printf

namespace Cezos

open Lib

structure ConsoleTexts where
  ro : Rodata
  rebooting : Word
  percentS : Word
  readError : Word

def consolePrintf (text : ConsoleTexts) (depth fuel : ℕ) (fmt : Word) (ap : List Word) : Con CInt :=
  Prog.zoom (fun s => (s.mem, s)) (fun _ k => { k.2 with mem := k.1 }) (cprintf (cputchar depth) text.ro fuel fmt ap)

def serialProcData : Con CInt := do
  let lsr ← inb (com1 + comLsr)
  if lsr &&& comLsrData = 0#8 then return -1#32
  else do
    let data ← inb (com1 + comRx)
    return data.setWidth 32

def kbstatp : CInt := 0x64#32
def kbdatap : CInt := 0x60#32
def kbsDib : Byte := 0x01#8
def kbsTerr : Byte := 0x20#8

def keyHome : Byte := 0xE0#8
def keyEnd : Byte := 0xE1#8
def keyUp : Byte := 0xE2#8
def keyDn : Byte := 0xE3#8
def keyLf : Byte := 0xE4#8
def keyRt : Byte := 0xE5#8
def keyPgup : Byte := 0xE6#8
def keyPgdn : Byte := 0xE7#8
def keyIns : Byte := 0xE8#8
def keyDel : Byte := 0xE9#8

def shiftKey : Word := 1#32 <<< 0
def ctlKey : Word := 1#32 <<< 1
def altKey : Word := 1#32 <<< 2
def capslock : Word := 1#32 <<< 3
def numlock : Word := 1#32 <<< 4
def scrolllock : Word := 1#32 <<< 5
def e0esc : Word := 1#32 <<< 6

def key (c : Char) : Byte := BitVec.ofNat 8 c.toNat

def ctl (x : Char) : Byte := key x - key '@'

def noKey : Char := '\x00'

def keyTable (first : List Byte) (named : List (Byte × Byte)) (i : Byte) : Byte :=
  (named.lookup i).getD (first.getD i.toNat 0#8)

def shiftcode (i : Byte) : Word :=
  if i = 0x1D#8 then ctlKey
  else if i = 0x2A#8 then shiftKey
  else if i = 0x36#8 then shiftKey
  else if i = 0x38#8 then altKey
  else if i = 0x9D#8 then ctlKey
  else if i = 0xB8#8 then altKey
  else 0#32

def togglecode (i : Byte) : Word :=
  if i = 0x3A#8 then capslock
  else if i = 0x45#8 then numlock
  else if i = 0x46#8 then scrolllock
  else 0#32

def normalmap : Byte → Byte := keyTable
  ([noKey, '\x1b', '1', '2', '3', '4', '5', '6', '7', '8', '9', '0', '-', '=', '\x08', '\t',
    'q', 'w', 'e', 'r', 't', 'y', 'u', 'i', 'o', 'p', '[', ']', '\n', noKey, 'a', 's',
    'd', 'f', 'g', 'h', 'j', 'k', 'l', ';', '\x27', '\x60', noKey, '\x5c', 'z', 'x', 'c', 'v',
    'b', 'n', 'm', ',', '.', '/', noKey, '*', noKey, ' ', noKey, noKey, noKey, noKey, noKey, noKey,
    noKey, noKey, noKey, noKey, noKey, noKey, noKey, '7', '8', '9', '-', '4', '5', '6', '+', '1',
    '2', '3', '0', '.', noKey, noKey, noKey, noKey].map key)
  [(0xC7#8, keyHome), (0x9C#8, key '\n'), (0xB5#8, key '/'), (0xC8#8, keyUp), (0xC9#8, keyPgup), (0xCB#8, keyLf),
    (0xCD#8, keyRt), (0xCF#8, keyEnd), (0xD0#8, keyDn), (0xD1#8, keyPgdn), (0xD2#8, keyIns), (0xD3#8, keyDel)]

def shiftmap : Byte → Byte := keyTable
  ([noKey, '\x1b', '!', '@', '#', '$', '%', '^', '&', '*', '(', ')', '_', '+', '\x08', '\t',
    'Q', 'W', 'E', 'R', 'T', 'Y', 'U', 'I', 'O', 'P', '\x7b', '\x7d', '\n', noKey, 'A', 'S',
    'D', 'F', 'G', 'H', 'J', 'K', 'L', ':', '\x22', '~', noKey, '|', 'Z', 'X', 'C', 'V',
    'B', 'N', 'M', '<', '>', '?', noKey, '*', noKey, ' ', noKey, noKey, noKey, noKey, noKey, noKey,
    noKey, noKey, noKey, noKey, noKey, noKey, noKey, '7', '8', '9', '-', '4', '5', '6', '+', '1',
    '2', '3', '0', '.', noKey, noKey, noKey, noKey].map key)
  [(0xC7#8, keyHome), (0x9C#8, key '\n'), (0xB5#8, key '/'), (0xC8#8, keyUp), (0xC9#8, keyPgup), (0xCB#8, keyLf),
    (0xCD#8, keyRt), (0xCF#8, keyEnd), (0xD0#8, keyDn), (0xD1#8, keyPgdn), (0xD2#8, keyIns), (0xD3#8, keyDel)]

def ctlmap : Byte → Byte := keyTable
  (List.replicate 16 (key noKey) ++
    [ctl 'Q', ctl 'W', ctl 'E', ctl 'R', ctl 'T', ctl 'Y', ctl 'U', ctl 'I',
      ctl 'O', ctl 'P', key noKey, key noKey, key '\r', key noKey, ctl 'A', ctl 'S',
      ctl 'D', ctl 'F', ctl 'G', ctl 'H', ctl 'J', ctl 'K', ctl 'L', key noKey,
      key noKey, key noKey, key noKey, ctl '\x5c', ctl 'Z', ctl 'X', ctl 'C', ctl 'V',
      ctl 'B', ctl 'N', ctl 'M', key noKey, key noKey, ctl '/', key noKey, key noKey])
  [(0x97#8, keyHome), (0xB5#8, ctl '/'), (0xC8#8, keyUp), (0xC9#8, keyPgup), (0xCB#8, keyLf), (0xCD#8, keyRt),
    (0xCF#8, keyEnd), (0xD0#8, keyDn), (0xD1#8, keyPgdn), (0xD2#8, keyIns), (0xD3#8, keyDel)]

def charcode (i : Word) : Byte → Byte :=
  if i = 0#32 then normalmap
  else if i = 1#32 then shiftmap
  else ctlmap

def setShift (shift : Word) : Con Unit := Prog.modify (fun s => { s with shift := shift })

def capsLocked (shift : Word) (c : CInt) : CInt :=
  if shift &&& capslock = 0#32 then c
  else if (chr 'a').toInt ≤ c.toInt ∧ c.toInt ≤ (chr 'z').toInt then c + (chr 'A' - chr 'a')
  else if (chr 'A').toInt ≤ c.toInt ∧ c.toInt ≤ (chr 'Z').toInt then c + (chr 'a' - chr 'A')
  else c

def kbdPressed (text : ConsoleTexts) (depth fuel : ℕ) (data : Byte) : Con CInt := do
  let old ← Prog.read (·.shift)
  let shift := (old ||| shiftcode data) ^^^ togglecode data
  setShift shift
  let c := capsLocked shift ((charcode (shift &&& (ctlKey ||| shiftKey)) data).setWidth 32)
  if ~~~shift &&& (ctlKey ||| altKey) = 0#32 ∧ c = keyDel.setWidth 32 then do
    let _ ← consolePrintf text depth fuel text.rebooting []
    outb 0x92#32 0x3#8
    return c
  else return c

def kbdProcData (text : ConsoleTexts) (depth fuel : ℕ) : Con CInt := do
  let stat ← inb kbstatp
  if stat &&& kbsDib = 0#8 then return -1#32
  else if stat &&& kbsTerr ≠ 0#8 then return -1#32
  else do
    let data ← inb kbdatap
    let shift ← Prog.read (·.shift)
    if data = 0xE0#8 then do
      setShift (shift ||| e0esc)
      return 0#32
    else if data &&& 0x80#8 ≠ 0#8 then do
      let data := if shift &&& e0esc ≠ 0#32 then data else data &&& 0x7F#8
      setShift (shift &&& ~~~(shiftcode data ||| e0esc))
      return 0#32
    else if shift &&& e0esc ≠ 0#32 then do
      setShift (shift &&& ~~~e0esc)
      kbdPressed text depth fuel (data ||| 0x80#8)
    else kbdPressed text depth fuel data

def consbufsize : ℕ := 512

structure Cons where
  buf : ℕ → Byte
  rpos : Word
  wpos : Word

structure Input where
  con : Console
  cons : Cons

def onConsole {α : Type} (x : Con α) : Prog Input α := Prog.zoom (·.con) (fun s con => { s with con := con }) x

def Cons.put (s : Cons) (c : CInt) : Cons where
  buf := Function.update s.buf s.wpos.toNat (c.setWidth 8)
  rpos := s.rpos
  wpos := if s.wpos + 1#32 = BitVec.ofNat 32 consbufsize then 0#32 else s.wpos + 1#32

def Cons.take (s : Cons) : Cons where
  buf := s.buf
  rpos := if s.rpos + 1#32 = BitVec.ofNat 32 consbufsize then 0#32 else s.rpos + 1#32
  wpos := s.wpos

def consoleInterrupt (fuel : ℕ) (proc : Con CInt) : Prog Input Unit :=
  Prog.whileSome (fun _ => do
    let c ← onConsole proc
    if c = -1#32 then return none
    else if c = 0#32 then return some ()
    else do
      Prog.check (fun s => decide (s.cons.wpos.toNat < consbufsize))
      Prog.modify (fun s => { s with cons := s.cons.put c })
      return some ()) fuel ()

section Calls

variable (text : ConsoleTexts) (depth fuel : ℕ)

def serialInterrupt : Prog Input Unit := do
  let serialExists ← Prog.read (·.con.serialExists)
  if serialExists = true then consoleInterrupt fuel serialProcData
  else return ()

def keyboardInterrupt : Prog Input Unit := consoleInterrupt fuel (kbdProcData text depth fuel)

def consoleGetc : Prog Input CInt := do
  serialInterrupt fuel
  keyboardInterrupt text depth fuel
  let cons ← Prog.read (·.cons)
  if cons.rpos ≠ cons.wpos then do
    Prog.check (fun _ => decide (cons.rpos.toNat < consbufsize))
    Prog.modify (fun s => { s with cons := s.cons.take })
    return (cons.buf cons.rpos.toNat).setWidth 32
  else return 0#32

def getchar : Prog Input CInt :=
  Prog.whileSome (fun c => if c = 0#32 then do
    let c ← consoleGetc text depth fuel
    return some c
  else return none) fuel 0#32

end Calls

def noTexts : ConsoleTexts := ⟨smallRodata, 0#32, 0#32, 0#32⟩

end Cezos
