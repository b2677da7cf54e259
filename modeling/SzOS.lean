import SzOS.Semantics.Loop
import SzOS.Semantics.Run
import SzOS.Semantics.Store
import SzOS.Semantics.Numerals
import SzOS.Libc.CString
import SzOS.Semantics.RingBuffer
import SzOS.Semantics.Simulation
import SzOS.Kernel.TabStops
import SzOS.Kernel.KeyboardBuffer
import SzOS.Kernel.KeyboardInterrupts
import SzOS.KernelC.Heap
import SzOS.Efi.Graphics
import SzOS.Efi.Idt
import SzOS.Efi.Interrupts
import SzOS.Efi.MainLoop
import SzOS.Efi.Memory
import SzOS.Hardware.I386
import SzOS.Kernel.Interrupts
import SzOS.KernelC.Interrupts
import SzOS.Libc.Printf
import SzOS.Efi.KeyInput
import SzOS.Efi.Mouse
import SzOS.Efi.Picture
import SzOS.Hardware.Stack
import SzOS.Kernel.EndOfInterrupt
import SzOS.Kernel.Exceptions
import SzOS.Kernel.Masks
import SzOS.KernelC.BootSector
import SzOS.KernelC.KeyState
import SzOS.KernelC.Screen
import SzOS.Efi.Allocator
import SzOS.Efi.MousePackets
import SzOS.Efi.Bounce
import SzOS.KernelC.ScreenBounds
import SzOS.Kernel.Characters
import SzOS.KernelC.Numbers
import SzOS.KernelC.Placement
import SzOS.Efi.DrawTarget
import SzOS.Semantics.Copy
import SzOS.Libc.Blocks
import SzOS.Semantics.Tape
import SzOS.Kernel.Writing
import SzOS.Semantics.DigitArray
import SzOS.Kernel.Panic
import SzOS.Bootloader.PrintHex
import SzOS.Semantics.LittleEndian
import SzOS.Efi.IdtBytes
import SzOS.Efi.Numbers
import SzOS.Kernel.Resumption
import SzOS.KernelC.ScreenText
import SzOS.KernelC.KeyTest
import SzOS.KernelC.FirstKey
import SzOS.Efi.FirstFrame
import SzOS.Hardware.Pit8254
import SzOS.Efi.Timer
import SzOS.Semantics.Window
import SzOS.Kernel.Roll
import SzOS.Semantics.Hexadecimal
import SzOS.Kernel.DebugDump
import SzOS.Kernel.Boot
import SzOS.Hardware.Frames
import SzOS.KernelC.Exceptions
import SzOS.Efi.MouseFraming
import SzOS.Kernel.KeyboardDriver
import SzOS.Efi.Text
import SzOS.Kernel.PanicScreen
import SzOS.Hardware.GateBytes
import SzOS.Kernel.IdtBytes
import SzOS.KernelC.IdtBytes
