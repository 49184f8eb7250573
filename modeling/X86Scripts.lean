import X86Scripts.AsmFront.Syntax
import X86Scripts.Lib.PyStr
import X86Scripts.Lib.Digits
import X86Scripts.Lib.Regex
import X86Scripts.Lib.Readable
import X86Scripts.AsmFront.Names
import X86Scripts.AsmFront.Term
import X86Scripts.AsmFront.Operand
import X86Scripts.Lib.Outcome
import X86Scripts.AsmFront.OperandReads
import X86Scripts.AsmFront.Mnemonic
import X86Scripts.AsmFront.Translate
import X86Scripts.AsmFront.TranslateEnds
import X86Scripts.AsmFront.Listing
import X86Scripts.AsmFront.ListingLines
import X86Scripts.AsmFront.ListingTiles
import X86Scripts.AsmFront.Command
import X86Scripts.AsmFront.Refusal
import X86Scripts.AsmFront.WrittenAddresses
import X86Scripts.Lib.Frame
import X86Scripts.SelftestSkip.Coverage
import X86Scripts.AsmFront.Disasm
import X86Scripts.AsmFront.DisasmReads
import X86Scripts.AsmFront.DisasmForms
import X86Scripts.AsmFront.RoundTrip
import X86Scripts.AsmFront.CoreListing
import X86Scripts.AsmFront.EmittedProgram
import X86Scripts.AsmFront.ListingConserves
import X86Scripts.AsmFront.Range
import X86Scripts.AsmFront.ElfFile
import X86Scripts.AsmFront.ElfWriter
import X86Scripts.AsmFront.LoadedImage
import X86Scripts.AsmFront.TranslatedFile
import X86Scripts.Lib.Classes
import X86Scripts.SelftestSkip.Shards
import X86Scripts.Lib.History
import X86Scripts.SelftestSkip.Ci
import X86Scripts.SelftestSkip.SkipChain
import X86Scripts.SelftestSkip.FastPath
