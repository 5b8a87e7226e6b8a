import ContractForge.Main
import ContractForge.Proofs.Syntax.Outline
import ContractForge.Proofs.Listing.SlotLayout
import ContractForge.Proofs.Listing.Storage
import ContractForge.Proofs.Check.Acceptance
import ContractForge.Proofs.Check.Offsets
import ContractForge.Proofs.Listing.Conservation
import ContractForge.Proofs.Listing.Separation
import ContractForge.Proofs.Lowering.Independence
import ContractForge.Proofs.Lowering.Setters
import ContractForge.Proofs.Lowering.MemberNames
import ContractForge.Proofs.Lowering.TableTypes
import ContractForge.Proofs.Lowering.FreshNames
import ContractForge.Proofs.Lowering.ImplicitReturn
import ContractForge.Proofs.Batch.Isolation
import ContractForge.Proofs.Lowering.Signs
import ContractForge.Proofs.Listing.MoveReports
import ContractForge.Proofs.Source.Numeral
import ContractForge.Proofs.Listing.Versions
import ContractForge.Proofs.Lowering.CallBlocks
import ContractForge.Proofs.Lowering.CheckedAssignment
import ContractForge.Proofs.Lowering.LiteralTypes
import ContractForge.Proofs.Source.Positions
